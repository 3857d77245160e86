import Prolly.CascadeOrder
import Prolly.Proof.Model
import Prolly.Reads

/-!
# Prolly.Proof.Key

Soundness of key and multi-key proofs against a stored tree.

The prover chooses every node. What ties a proof to the tree is its root: where
SHA-256 has no collision among the encodings involved, a proof node whose
identifier is that of a node of the tree *is* that node (`Admissible.authentic`),
since the encoding is injective. From the root on, every node the verifier walks
through is then a node of the tree, and the separators of the tree route the key
as a read does.

Collision freedom is asked only of the nodes of the proof and of the store. Asked
of all node encodings it could not hold of any function into 32 bytes.
-/

namespace Prolly

open SortedAssoc (Sorted lookup firstKey)
open List

/-- What may be assumed of the nodes of a proof: they were decoded from bytes, and
there is no collision among them and the stored nodes. -/
structure Admissible (p : Manager) (path : List Node) : Prop where
  decoded : ∀ n ∈ path, ∃ data, Node.fromBytes data = .ok n
  collisionFree : p.digests.CollisionFree ({n | n ∈ path} ∪ p.nodes)

/-- A proof node with the identifier of a subtree is the root of that subtree. -/
def Authentic (p : Manager) (path : List Node) : Prop :=
  ∀ n ∈ path, ∀ {level : Nat} {cid : Cid} {es : List Entry}, n.cid p.digests = cid →
    Subtree p level cid es → NodeHolds p level n es

/-! ### Proof nodes are tree nodes -/

section Authentic

variable {p : Manager} {path : List Node}

/-- A decodable node encodes, and its encoding is that of no other node. -/
theorem Node.eq_of_toBytes {n m : Node} (hn : n.Shape) (hm : m.WellShaped)
    (h : n.toBytes = m.toBytes) : n = m := by
  obtain ⟨bytes, hbytes⟩ := hn.tryToBytes
  have hne : bytes ≠ [] := by
    obtain ⟨fb, body, -, -, rfl⟩ := tryToBytes_eq_ok.mp hbytes
    simp [compactMagic]
  have hnBytes : n.toBytes = bytes := by rw [toBytes, hbytes]
  have hmBytes : m.tryToBytes = .ok bytes := by
    rw [hnBytes, toBytes] at h
    split at h
    · next b hb => rw [hb, h]
    · exact absurd h hne
  exact tryToBytes_inj hn.wellShaped hm hbytes hmBytes

/-- Where there is no collision, the encoding tells which node it is. -/
theorem Admissible.authentic (hadm : Admissible p path) : Authentic p path := by
  intro n hn level cid es hcid h
  obtain ⟨m, hm, hholds⟩ := subtree_iff.mp h
  obtain ⟨data, hdata⟩ := hadm.decoded n hn
  have hmcid : m.cid p.digests = cid := (Manager.loadArc_eq_ok.mp hm).2.1
  have hbytes := hadm.collisionFree n (.inl hn) m (.inr ⟨cid, hm⟩) (hcid.trans hmcid.symm)
  rw [Node.eq_of_toBytes (Node.fromBytes_shape hdata) hholds.wellShaped hbytes]
  exact hholds

end Authentic

/-! ### Routing -/

section Route

variable {n : Node} {key : Bytes} {i : Nat}

theorem Node.getElem?_of_search_ok (h : n.search key = .ok i) : n.keys[i]? = some key := by
  simp only [Node.search] at h
  split at h
  · next hkey => rwa [← Except.ok.inj h]
  · cases h

/-- Before the insertion point all keys are smaller. -/
theorem Node.getElem?_of_search_error (h : n.search key = .error (i + 1)) :
    n.keys[i]? ≠ some key := by
  simp only [Node.search] at h
  split at h
  · cases h
  · have hlen : i < (n.keys.takeWhile (· < key)).length := by rw [Except.error.inj h]; omega
    have hstart := takeWhile_prefix (fun k : Bytes => decide (k < key)) (l := n.keys)
    have hlt : (n.keys.takeWhile (· < key))[i] < key := by
      simpa using mem_takeWhile_imp (getElem_mem hlen)
    rw [List.getElem?_eq_getElem (hlen.trans_le hstart.length_le), ← hstart.getElem hlen]
    simpa using hlt.ne

/-- A leaf search finds the value of the key. -/
theorem Node.IsLeaf.verifiedLeafValue {es : List Entry} (h : n.IsLeaf es) (key : Bytes) :
    verifiedLeafValue n key = lookup es key := by
  rw [Prolly.verifiedLeafValue, if_neg (by simp [h.leaf]), ← Manager.leaf_search h key]
  cases hs : n.search key with
  | ok i =>
    simp [Manager.childIndex, hs, Manager.leafValue, Node.getElem?_of_search_ok hs]
  | error i =>
    cases i with
    | zero => rfl
    | succ i =>
      simp [Manager.childIndex, hs, Manager.leafValue, Node.getElem?_of_search_error hs]

/-- The child a proof path must go on with: only it can hold the key. -/
theorem Node.IsInternal.pathChild {level : Nat} {kids : List Child} (hn : n.IsInternal level kids)
    (hsub : ∀ c ∈ kids, c.entries ≠ [] ∧ Sorted c.entries) (key : Bytes) :
    ∃ c ∈ kids, childAt n (pathChildIndex n key) = some c.cid ∧
      lookup (Child.all kids) key = lookup c.entries key := by
  have hkeys : n.keys.takeWhile (· ≤ key) =
      (kids.takeWhile fun c => firstKey c.entries ≤ key).map fun c => firstKey c.entries := by
    rw [hn.keys, takeWhile_map]
    rfl
  rcases SortedAssoc.split_last_le (fun c : Child => firstKey c.entries) key kids with
    hall | ⟨pre, c, post, rfl, hc, hpost⟩
  · -- below every separator: the first child, which does not hold the key
    obtain ⟨c, rest, rfl⟩ := exists_cons_of_ne_nil hn.nonempty
    have hfirst := hall c mem_cons_self
    refine ⟨c, mem_cons_self, ?_, ?_⟩
    · simp [childAt, pathChildIndex, hkeys, hn.vals, hfirst.not_ge]
    · rw [Child.lookup_below hall fun d hd => (hsub d hd).2,
        SortedAssoc.lookup_eq_none_of_lt_firstKey (hsub c mem_cons_self).2 hfirst]
  · have hne : ∀ d ∈ pre ++ c :: post, d.entries ≠ [] := fun d hd => (hsub d hd).1
    have hpre := (pairwise_append.mp (Child.firstKeys_sorted hn.sorted hne)).2.2
    have htake : (pre ++ c :: post).takeWhile (fun c => decide (firstKey c.entries ≤ key)) =
        pre ++ [c] := by
      rw [takeWhile_append_of_pos fun d hd => by
        simpa using (hpre d hd c mem_cons_self).le.trans hc]
      cases post with
      | nil => simp [hc]
      | cons d post => simp [hc, hpost d mem_cons_self]
    refine ⟨c, by simp, ?_, Child.lookup_split hn.sorted hne hc hpost⟩
    simp [childAt, pathChildIndex, hkeys, htake, hn.vals]

end Route

/-! ### Key proofs -/

section KeyProofs

variable {p : Manager} {path : List Node} {es : List Entry}

/-- Along a consistent path the verified value is the one in the tree. The induction is on
the path, with the subtree below each of its nodes. -/
theorem pathIsConsistent_sound {key : Bytes} {nodes : List Node} (hauth : Authentic p path)
    (hsub : ∀ n ∈ nodes, n ∈ path) (h : pathIsConsistent p.digests key nodes = true) {level : Nat}
    {cid : Cid} (hcid : ∀ n ∈ nodes.head?, n.cid p.digests = cid) (htree : Subtree p level cid es) :
    nodes.getLast?.bind (fun leaf => verifiedLeafValue leaf key) = lookup es key := by
  induction nodes generalizing level cid es with
  | nil => simp [pathIsConsistent] at h
  | cons node rest ih =>
    have hnode := hauth node (hsub node mem_cons_self) (hcid node rfl) htree
    cases rest with
    | nil =>
      simp only [pathIsConsistent, Bool.and_eq_true] at h
      cases level with
      | zero => exact Node.IsLeaf.verifiedLeafValue hnode key
      | succ level =>
        obtain ⟨kids, hint, -, -⟩ := hnode
        exact absurd h.2 (by simp [hint.leaf])
    | cons next rest =>
      simp only [pathIsConsistent, Bool.and_eq_true, Bool.not_eq_true', decide_eq_true_eq] at h
      obtain ⟨⟨⟨⟨-, hleaf⟩, -⟩, hchild⟩, hrest⟩ := h
      cases level with
      | zero => exact absurd hleaf (by simp [Node.IsLeaf.leaf hnode])
      | succ level =>
        obtain ⟨kids, hint, rfl, hkids⟩ := hnode
        obtain ⟨c, hc, hat, hlookup⟩ := hint.pathChild
          (fun c hc => ⟨(hkids c hc).nonempty, (hkids c hc).sorted⟩) key
        rw [hlookup, List.getLast?_cons_cons]
        refine ih (fun n hn => hsub n (.tail _ hn)) hrest ?_ (hkids c hc)
        rintro n hn
        obtain rfl : next = n := Option.some.inj hn
        exact Option.some.inj (hchild.symm.trans hat)

theorem verifyKeyProof_sound {proof : KeyProof} (hauth : Authentic p proof.path)
    (hholds : Holds p proof.root es) (hvalid : (verifyKeyProof p.digests proof).valid = true) :
    (verifyKeyProof p.digests proof).value = lookup es proof.key := by
  have hcons : proofIsConsistent p.digests proof = true := hvalid
  rw [verifyKeyProof]
  simp only [hcons, if_true]
  obtain ⟨root, key, path⟩ := proof
  cases root with
  | none =>
    obtain rfl : es = [] := hholds
    cases path with
    | nil => rfl
    | cons n path => simp [proofIsConsistent] at hcons
  | some root =>
    obtain ⟨level, htree⟩ := hholds
    cases path with
    | nil => simp [proofIsConsistent] at hcons
    | cons n path =>
      simp only [proofIsConsistent, Bool.and_eq_true, decide_eq_true_eq] at hcons
      refine pathIsConsistent_sound hauth (fun _ h => h) hcons.2 ?_ htree
      rintro m hm
      obtain rfl : n = m := Option.some.inj hm
      exact hcons.1

end KeyProofs

/-! ### Multi-key proofs -/

section MultiKeyProofs

variable {p : Manager} {nodes : List Node} {cid : Cid} {es : List Entry}

theorem nodeMapGet_eq_some {d : Digests} {n : Node} (h : nodeMapGet d nodes cid = some n) :
    n ∈ nodes ∧ n.cid d = cid :=
  ⟨mem_reverse.mp (mem_of_find?_eq_some h), by simpa using List.find?_some h⟩

/-- Whatever the node map holds besides, a value found from the identifier of a subtree is
the one in the subtree. -/
theorem verifiedValueLoop_sound {key : Bytes} (hauth : Authentic p nodes) {rounds : Nat}
    {visited : List Cid} {value : Option Bytes}
    (h : verifiedValueLoop p.digests nodes key rounds visited cid = some value) {level : Nat}
    (htree : Subtree p level cid es) : value = lookup es key := by
  induction rounds generalizing visited cid level es with
  | zero => simp [verifiedValueLoop] at h
  | succ rounds ih =>
    rw [verifiedValueLoop] at h
    split at h
    · cases h
    obtain ⟨node, hget, h⟩ := Option.bind_eq_some_iff.mp h
    obtain ⟨hmem, hcid⟩ := nodeMapGet_eq_some hget
    have hnode := hauth node hmem hcid htree
    cases level with
    | zero =>
      have hnode : node.IsLeaf es := hnode
      rw [if_pos hnode.leaf] at h
      exact (Option.some.inj h).symm.trans (hnode.verifiedLeafValue key)
    | succ level =>
      obtain ⟨kids, hint, rfl, hkids⟩ := hnode
      rw [if_neg (by simp [hint.leaf])] at h
      obtain ⟨c, hc, hat, hlookup⟩ := hint.pathChild
        (fun c hc => ⟨(hkids c hc).nonempty, (hkids c hc).sorted⟩) key
      rw [hat, Option.bind_some] at h
      obtain ⟨child, -, h⟩ := Option.bind_eq_some_iff.mp h
      split at h
      · cases h
      · rw [hlookup]
        exact ih h (hkids c hc)

theorem verifyMultiKeyProof_sound {proof : MultiKeyProof} (hauth : Authentic p proof.path)
    (hholds : Holds p proof.root es) :
    ∀ r ∈ (verifyMultiKeyProof p.digests proof).results, r.valid = true →
      r.value = lookup es r.key := by
  intro r hr hvalid
  rw [verifyMultiKeyProof] at hr
  have hunverified : ∀ r ∈ proof.keys.map (fun key =>
      (⟨false, proof.root, key, none⟩ : KeyProofVerification)), r.valid = false ∧
          r.value = none := by
    simp
  split at hr
  · simp [(hunverified r hr).1] at hvalid
  next nodes hnodes =>
    obtain rfl : proof.path = nodes := by
      rw [proofNodeMap] at hnodes
      split at hnodes
      · exact Option.some.inj hnodes
      · cases hnodes
    split at hr
    · next hroot =>
        rw [hroot] at hholds
        obtain rfl : es = [] := hholds
        obtain ⟨r', hr', rfl⟩ := mem_map.mp hr
        exact (hunverified r' hr').2
    · next root hroot =>
        split at hr
        · simp [(hunverified r hr).1] at hvalid
        · rw [hroot] at hholds
          obtain ⟨level, htree⟩ := hholds
          obtain ⟨r', hr', rfl⟩ := mem_map.mp hr
          have hr'' := hunverified r' hr'
          split at hvalid
          · next value hvalue => exact verifiedValueLoop_sound hauth hvalue htree
          · simp [hr''.1] at hvalid

end MultiKeyProofs

/-! ### Soundness -/

/-- A key or multi-key proof over the root of a tree reports for every key it accepts what
`get` reads from the tree. A proof without a root is valid only without nodes, and then
proves absence. -/
theorem keyProofs_sound {p : Manager} {tree : Tree} {es : List Entry}
    (hholds : Holds p tree.root es) :
    (∀ proof : KeyProof, proof.root = tree.root → Admissible p proof.path →
      (verifyKeyProof p.digests proof).valid = true →
      Enough fun fuel => p.get fuel tree proof.key = .ok (verifyKeyProof p.digests proof).value) ∧
    (∀ proof : MultiKeyProof, proof.root = tree.root → Admissible p proof.path →
      ∀ r ∈ (verifyMultiKeyProof p.digests proof).results, r.valid = true →
      Enough fun fuel => p.get fuel tree r.key = .ok r.value) ∧
    (∀ proof : KeyProof, proof.root = none → (verifyKeyProof p.digests proof).valid = true →
      proof.path = [] ∧ (verifyKeyProof p.digests proof).value = none) ∧
    (∀ proof : MultiKeyProof, proof.root = none →
      (verifyMultiKeyProof p.digests proof).valid = true →
      proof.path = [] ∧ ∀ r ∈ (verifyMultiKeyProof p.digests proof).results,
        r.valid = true ∧ r.value = none) := by
  refine ⟨fun proof hroot hadm hvalid => ?_, fun proof hroot hadm r hr hvalid => ?_,
    fun proof hroot hvalid => ?_, fun proof hroot hvalid => ?_⟩
  · rw [verifyKeyProof_sound hadm.authentic (hroot ▸ hholds) hvalid]
    exact Manager.get_eq hholds proof.key
  · rw [verifyMultiKeyProof_sound hadm.authentic (hroot ▸ hholds) r hr hvalid]
    exact Manager.get_eq hholds r.key
  · obtain ⟨root, key, path⟩ := proof
    obtain rfl : root = none := hroot
    cases path with
    | nil => exact ⟨rfl, rfl⟩
    | cons n path => simp [verifyKeyProof, proofIsConsistent] at hvalid
  · obtain ⟨root, keys, path⟩ := proof
    obtain rfl : root = none := hroot
    cases path with
    | nil => simp [verifyMultiKeyProof, proofNodeMap]
    | cons n path =>
      simp only [verifyMultiKeyProof] at hvalid
      split at hvalid <;> simp at hvalid

/-! ### Proofs over the stored trees -/

section

open Reversed

/-- Nodes of the table are admissible in a proof. -/
theorem Reversed.admissible {path : List Node} (h : ∀ n ∈ path, n ∈ table.map Prod.fst) :
    Admissible manager path where
  decoded n hn := by
    have hdecode : ∀ row ∈ table, Node.fromBytes row.1.toBytes = .ok row.1 := by decide +kernel
    obtain ⟨row, hrow, rfl⟩ := mem_map.mp (h n hn)
    exact ⟨row.1.toBytes, hdecode row hrow⟩
  collisionFree := (proper.collisionFree h).mono (Set.union_comm ..).subset

/-- The nodes stored under these identifiers. -/
def Reversed.path (cids : List Cid) : List Node := cids.filterMap manager.store

theorem Reversed.path_admissible (cids : List Cid) : Admissible manager (path cids) := by
  refine admissible fun n hn => ?_
  obtain ⟨cid, -, hstore⟩ := mem_filterMap.mp hn
  obtain ⟨row, hfind, rfl⟩ := Option.map_eq_some_iff.mp hstore
  exact mem_map_of_mem (mem_of_find?_eq_some hfind)

/-- Two paths of three nodes prove what `b` is bound to and that `ab` is not bound. -/
theorem keyProofs_sound_uabc :
    (Enough fun fuel => manager.get fuel uabc b.1 = .ok (some b.2)) ∧
    Enough fun fuel => manager.get fuel uabc [97, 98] = .ok none := by
  have h := (keyProofs_sound holds_uabc).1
  have hb := h ⟨uabc.root, b.1, path [ucCid, bcCid, bCid]⟩ rfl (path_admissible _)
  have hab := h ⟨uabc.root, [97, 98], path [ucCid, uaCid, aCid]⟩ rfl (path_admissible _)
  have hverified :
      let b := verifyKeyProof digests ⟨uabc.root, b.1, path [ucCid, bcCid, bCid]⟩
      let ab := verifyKeyProof digests ⟨uabc.root, [97, 98], path [ucCid, uaCid, aCid]⟩
      (b.valid = true ∧ b.value = some Reversed.b.2) ∧ ab.valid = true ∧ ab.value = none := by
    decide +kernel
  obtain ⟨⟨hb1, hb2⟩, hab1, hab2⟩ := hverified
  exact ⟨hb2 ▸ hb hb1, hab2 ▸ hab hab1⟩

end

end Prolly

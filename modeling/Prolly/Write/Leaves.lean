import Prolly.Write.Basic

/-!
# Prolly.Write.Leaves

The leaf level of a tree, as `collect_leaf_summaries` lists it.

`Layered q level cid ss es` says that the subtree at `cid` holds `es` and that `ss` is
its leaf level. The listing returns that level (`collectFromNode_layered`).
-/

namespace Prolly

open SortedAssoc (Sorted firstKey)
open List

/-! ### Listing the leaves -/

/-- The summary of leaf `index` of a node at level 1. A count of zero is looked up. -/
def leafSummary (p : Manager) (n : Node) (index : Nat) : Result NodeSummary := do
  let cid ← n.childCid index
  let count := n.childCounts.getD index 0
  let count ← if count = 0 then do
      let leaf ← p.loadArc cid
      pure leaf.keys.length
    else pure count
  return ⟨cid, n.keys.getD index [], count⟩

/-- `collect_from_node`: the leaves below a node and the internal nodes met. -/
def collectFromNode (p : Manager) (format : TreeFormat) :
    Nat → Cid → Result (List NodeSummary × List Cid)
  | 0, _ => .error .outOfFuel
  | fuel + 1, cid => do
      let node ← p.loadArc cid
      if node.format ≠ format then .error .formatMismatch
      else if node.leaf then return ([⟨cid, node.headKey, node.keys.length⟩], [])
      else if node.keys.length ≠ node.vals.length then .error .invalidNode
      else if node.level = 1 then
        let leaves ← (range node.len).mapM (leafSummary p node)
        return (leaves, [cid])
      else
        let parts ← node.vals.mapM fun val => do
          collectFromNode p format fuel (← childCidFromBytes val)
        return (parts.flatMap Prod.fst, cid :: parts.flatMap Prod.snd)

/-- `collect_leaf_summaries`. -/
def collectLeafSummaries (p : Manager) (fuel : Nat) (tree : Tree) :
    Result (List NodeSummary × List Cid) :=
  match tree.root with
  | none => .ok ([], [])
  | some root => collectFromNode p tree.format fuel root

/-! ### The leaf level -/

/-- The subtree at `cid` holds `es`, and `ss` is its leaf level. -/
def Layered (q : Manager) : Nat → Cid → List NodeSummary → List Entry → Prop
  | 0, cid, ss, es => Subtree q 0 cid es ∧ ss = [⟨cid, firstKey es, es.length⟩]
  | level + 1, cid, ss, es => ∃ n kids, ∃ leaves : Child → List NodeSummary,
      q.loadArc cid = .ok n ∧ n.IsInternal (level + 1) kids ∧ es = Child.all kids ∧
      ss = kids.flatMap leaves ∧ ∀ c ∈ kids, Layered q level c.cid (leaves c) c.entries

/-- Forests below children, side by side. -/
theorem Forest.flatMap {q : Manager} {level : Nat} {kids : List Child}
    {leaves : Child → List NodeSummary} (h : ∀ c ∈ kids, Forest q level (leaves c) c.entries) :
    Forest q level (kids.flatMap leaves) (Child.all kids) := by
  induction kids with
  | nil => exact .nil
  | cons c kids ih =>
    rw [flatMap_cons, Child.all_cons]
    exact (h c mem_cons_self).append (ih fun d hd => h d (.tail _ hd))

namespace Layered

variable {p q : Manager} {level : Nat} {cid : Cid} {ss : List NodeSummary} {es : List Entry}

theorem forest : ∀ {level : Nat} {cid : Cid} {ss : List NodeSummary} {es : List Entry},
    Layered q level cid ss es → Forest q 0 ss es
  | 0, _, _, _, ⟨hsub, hss⟩ => hss ▸ .of_subtree hsub rfl rfl
  | _ + 1, _, _, _, ⟨_, _, _, _, _, hes, hss, hkids⟩ =>
    hes ▸ hss ▸ Forest.flatMap fun c hc => (hkids c hc).forest

end Layered

section Collect

variable {p : Manager} {format : TreeFormat} {n : Node} {kids : List Child} {α : Type} {xs : List α}

theorem leafSummary_eq (hint : n.IsInternal 1 kids)
    (hkids : ∀ c ∈ kids, Subtree p 0 c.cid c.entries) {index : Nat} {c : Child}
    (hc : kids[index]? = some c) : leafSummary p n index = .ok c.summary := by
  have hmem : c ∈ kids := mem_of_getElem? hc
  have hcid : n.childCid index = .ok c.cid := by simp [Node.childCid, hint.vals, hc]
  have hpos : c.entries.length ≠ 0 := by simpa using (hkids c hmem).nonempty
  simp [leafSummary, hcid, hint.keys, hint.counts, hc, hpos, Child.summary]

/-- A loop over the indices of a list that returns its elements. -/
theorem Result.mapM_range {f : Nat → Result α}
    (h : ∀ (i : Nat) (x : α), xs[i]? = some x → f i = .ok x) :
    (range xs.length).mapM f = .ok xs := by
  induction xs using reverseRecOn with
  | nil => rfl
  | append_singleton xs x ih =>
    have hinit : ∀ (i : Nat) (y : α), xs[i]? = some y → f i = .ok y := fun i y hy =>
      h i y (by rw [List.getElem?_append_left (List.getElem?_eq_some_iff.mp hy).1, hy])
    have hlast : f xs.length = .ok x := h _ x (by simp)
    rw [length_append, length_singleton, range_succ, mapM_append, ih hinit,
      ok_bind, mapM_cons, hlast]
    rfl

theorem mapM_leafSummary (hint : n.IsInternal 1 kids)
    (hkids : ∀ c ∈ kids, Subtree p 0 c.cid c.entries) :
    (range n.len).mapM (leafSummary p n) = .ok (kids.map Child.summary) := by
  have hlen : n.len = (kids.map Child.summary).length := by simp [Node.len, hint.keys]
  rw [hlen]
  refine Result.mapM_range fun i s hs => ?_
  rw [getElem?_map] at hs
  obtain ⟨c, hc, rfl⟩ := Option.map_eq_some_iff.mp hs
  exact leafSummary_eq hint hkids hc

/-- What a loop that succeeds has computed. -/
theorem Result.mapM_ok {β : Type} [Inhabited β] {f : α → Result β} {ys : List β}
    (h : xs.mapM f = .ok ys) : ∃ g : α → β, (∀ x ∈ xs, f x = .ok (g x)) ∧ ys = xs.map g := by
  refine ⟨fun x => (f x).toOption.getD default, ?_⟩
  induction xs generalizing ys with
  | nil =>
    cases h
    exact ⟨by simp, rfl⟩
  | cons x xs ih =>
    rw [mapM_cons] at h
    obtain ⟨y, hy, h⟩ := of_bind h
    obtain ⟨ys', hys, h⟩ := of_bind h
    cases h
    obtain ⟨hall, hys'⟩ := ih hys
    have hx : (f x).toOption.getD default = y := by rw [hy]; rfl
    refine ⟨fun z hz => ?_, by rw [map_cons, hx, ← hys']⟩
    rcases mem_cons.mp hz with rfl | hz
    · exact hy.trans (congrArg Except.ok hx.symm)
    · exact hall z hz

/-- The listing returns the leaf level. -/
theorem collectFromNode_layered {fuel level : Nat} {cid : Cid} {es : List Entry}
    {ss : List NodeSummary} {cids : List Cid} (hsub : Subtree p level cid es)
    (h : collectFromNode p format fuel cid = .ok (ss, cids)) :
    Layered p level cid ss es := by
  induction fuel generalizing level cid es ss cids with
  | zero => cases h
  | succ fuel ih =>
    obtain ⟨node, hload, h⟩ := of_bind h
    obtain ⟨n, hn, hholds⟩ := subtree_iff.mp hsub
    obtain rfl : node = n := Except.ok.inj (hload.symm.trans hn)
    split at h
    · cases h
    cases level with
    | zero =>
      have hleaf : node.IsLeaf es := hholds
      rw [if_pos hleaf.leaf] at h
      cases h
      refine ⟨hsub, ?_⟩
      rw [Node.headKey, hleaf.keys, length_map]
      cases es with
      | nil => exact absurd rfl hleaf.nonempty
      | cons e es => rfl
    | succ level =>
      obtain ⟨kids, hint, rfl, hkids⟩ := hholds
      rw [if_neg (by simp [hint.leaf])] at h
      split at h
      · cases h
      split at h
      · next hlevel =>
          obtain rfl : level = 0 := by
            have := hint.level
            omega
          rw [mapM_leafSummary hint hkids, ok_bind] at h
          cases h
          exact ⟨node, kids, fun c => [c.summary], hload, hint, rfl, map_eq_flatMap,
            fun c hc => ⟨hkids c hc, rfl⟩⟩
      · obtain ⟨parts, hparts, h⟩ := of_bind h
        cases h
        rw [hint.vals, mapM_map] at hparts
        obtain ⟨part, hpart, rfl⟩ := Result.mapM_ok hparts
        refine ⟨node, kids, fun c => (part c).1, hload, hint, rfl, by rw [flatMap_map],
          fun c hc => ?_⟩
        have hcollect := hpart c hc
        rw [Function.comp_apply, childCidFromBytes_bytes, ok_bind] at hcollect
        exact ih (hkids c hc) hcollect

end Collect

end Prolly

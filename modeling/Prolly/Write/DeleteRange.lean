import Prolly.CascadeOrder
import Prolly.Write.RangeDelete

/-!
# Prolly.Write.DeleteRange

What a range deletion leaves (`range_delete::apply`), at any height.

Where the splice of `Prolly.Write.RangeDelete` does not apply, one descent tells
whether the range holds an entry (`rangeHasEntry_iff`), and if so all entries outside
the range are collected and built anew. The deletion is exact as long as the builder
keeps the order of these entries (`deleteRange_exact`); a range without entries always
gives the tree back.
-/

namespace Prolly

open SortedAssoc (Sorted firstKey lookup)
open List

/-! ### Whether the range holds an entry -/

section Probe

variable {p : Manager} {start stop : Bytes} {fuel level : Nat} {cid : Cid} {es : List Entry}
  {frames : List PathFrame} {before after : List Entry} {leaf : Node} {r : Bool}

/-- Down to the leaf a key belongs to: everything to its left is below the key, everything to
its right above it. -/
theorem probeLeaf_spec {ancestors : List PathFrame} (h : Path p level frames before after)
    (hsub : Subtree p level cid es) (hbefore : ∀ x ∈ before, x.1 < start)
    (hafter : ∀ x ∈ after, start < x.1)
    (hprobe : probeLeaf p start fuel frames cid = .ok (leaf, ancestors)) :
    ∃ les before' after', leaf.IsLeaf les ∧ Path p 0 ancestors before' after' ∧
      before ++ es ++ after = before' ++ les ++ after' ∧ (∀ x ∈ before', x.1 < start) ∧
      ∀ x ∈ after', start < x.1 := by
  induction level generalizing frames before after cid es fuel with
  | zero =>
    obtain ⟨n, hn, hleaf⟩ := hsub
    cases fuel with
    | zero => cases hprobe
    | succ fuel =>
      rw [probeLeaf, hn, ok_bind] at hprobe
      simp only [hleaf.isEmpty, hleaf.leaf, Bool.false_eq_true, if_false, if_true] at hprobe
      cases hprobe
      exact ⟨es, before, after, hleaf, h, rfl, hbefore, hafter⟩
  | succ level ih =>
    obtain ⟨n, kids, hn, hint, rfl, hkids⟩ := hsub
    cases fuel with
    | zero => cases hprobe
    | succ fuel =>
      have hne : ∀ c ∈ kids, c.entries ≠ [] := fun c hc => (hkids c hc).nonempty
      obtain ⟨pre, c, post, rfl, hindex, hpre, hpost⟩ := hint.focus hne start
      rw [probeLeaf, hn, ok_bind] at hprobe
      simp only [hint.isEmpty, hint.leaf, Bool.false_eq_true, if_false, hindex, hint.childCid,
        ok_bind] at hprobe
      obtain ⟨les, before', after', hleaf, hpath, hes, hb, ha⟩ :=
        ih (.cons hint hkids h) (hkids c (by simp))
          (forall_mem_append.mpr ⟨hbefore, hpre⟩)
          (forall_mem_append.mpr ⟨hpost, hafter⟩) hprobe
      refine ⟨les, before', after', hleaf, hpath, ?_, hb, ha⟩
      rw [← hes]
      simp [append_assoc]

theorem firstLeaf_spec (hsub : Subtree p level cid es) (h : firstLeaf p fuel cid = .ok leaf) :
    ∃ les rest, leaf.IsLeaf les ∧ es = les ++ rest := by
  induction level generalizing cid es fuel with
  | zero =>
    obtain ⟨n, hn, hleaf⟩ := hsub
    cases fuel with
    | zero => cases h
    | succ fuel =>
      rw [firstLeaf, hn, ok_bind] at h
      simp only [hleaf.isEmpty, hleaf.leaf, Bool.false_eq_true, if_false, if_true] at h
      cases h
      exact ⟨es, [], hleaf, by simp⟩
  | succ level ih =>
    obtain ⟨n, kids, hn, hint, rfl, hkids⟩ := hsub
    cases fuel with
    | zero => cases h
    | succ fuel =>
      obtain ⟨c, post, rfl⟩ := exists_cons_of_ne_nil hint.nonempty
      have hcid : n.childCid 0 = .ok c.cid := @Node.IsInternal.childCid n (level + 1) [] post c hint
      rw [firstLeaf, hn, ok_bind] at h
      simp only [hint.isEmpty, hint.leaf, Bool.false_eq_true, if_false, hcid, ok_bind] at h
      obtain ⟨les, rest, hleaf, hes⟩ := ih (hkids c mem_cons_self) h
      exact ⟨les, rest ++ Child.all post, hleaf, by simp [hes]⟩

/-- Up to the next leaf: it starts with the entry that comes next. -/
theorem probeNext_iff (h : Path p level frames before after)
    (hnext : probeNext p fuel stop frames = .ok r) : r = true ↔ ∃ x ∈ after.head?, x.1 < stop := by
  induction h with
  | nil =>
    cases hnext
    simp
  | cons hint hkids hrest ih =>
    rename_i level n pre post c frames before after
    rw [probeNext, hint.len] at hnext
    cases post with
    | nil =>
      rw [if_pos (by simp)] at hnext
      simpa using ih hnext
    | cons d post =>
      rw [if_neg (by simp)] at hnext
      have hint' : n.IsInternal (level + 1) ((pre ++ [c]) ++ d :: post) := by simpa using hint
      have hcid := hint'.childCid
      rw [length_append, length_singleton] at hcid
      rw [hcid, ok_bind] at hnext
      obtain ⟨leaf, hleaf, hnext⟩ := of_bind hnext
      cases hnext
      obtain ⟨les, rest, hles, hes⟩ := firstLeaf_spec (hkids d (by simp)) hleaf
      obtain ⟨y, ys, rfl⟩ := exists_cons_of_ne_nil hles.nonempty
      simp [hles.keys, hes]

/-- In sorted entries, the first one that is not before the range tells whether any lies in it. -/
theorem exists_inDeleted_iff {xs ys : List Entry} (hs : Sorted (xs ++ ys))
    (hxs : ∀ x ∈ xs, x.1 < start) (hys : ∀ x ∈ ys, start ≤ x.1) :
    (∃ x ∈ xs ++ ys, inDeleted start stop x.1 = true) ↔ ∃ x ∈ ys.head?, x.1 < stop := by
  constructor
  · rintro ⟨x, hx, hdel⟩
    obtain ⟨hstart, hstop⟩ := inDeleted_eq_true.mp hdel
    have hx : x ∈ ys := (mem_append.mp hx).resolve_left fun hx => (hxs x hx).not_ge hstart
    obtain ⟨y, ys, rfl⟩ := exists_cons_of_ne_nil (ne_nil_of_mem hx)
    refine ⟨y, rfl, lt_of_le_of_lt ?_ hstop⟩
    have hfirst := (SortedAssoc.sorted_append.mp hs).2.1.firstKey_le hx
    simpa using hfirst
  · rintro ⟨x, hx, hstop⟩
    have hx : x ∈ ys := mem_of_head? hx
    exact ⟨x, mem_append_right _ hx, inDeleted_eq_true.mpr ⟨hys x hx, hstop⟩⟩

/-- `range_has_entry` tells whether the range holds an entry. -/
theorem rangeHasEntry_iff {tree : Tree} (hholds : Holds p tree.root es)
    (h : rangeHasEntry p fuel tree start stop = .ok r) :
    r = true ↔ ∃ x ∈ es, inDeleted start stop x.1 = true := by
  have hs := hholds.sorted
  unfold rangeHasEntry at h
  split at h
  · next hroot =>
    cases h
    rw [hroot] at hholds
    obtain rfl : es = [] := hholds
    simp
  · next root hroot =>
    rw [hroot] at hholds
    obtain ⟨level, hsub⟩ := hholds
    obtain ⟨⟨leaf, ancestors⟩, hprobe, h⟩ := of_bind h
    obtain ⟨les, before, after, hleaf, hpath, hes, hbefore, hafter⟩ :=
      probeLeaf_spec .nil hsub (by simp) (by simp) hprobe
    obtain rfl : es = before ++ les ++ after := by simpa using hes
    have hpred : (fun key : Bytes => decide (key < start)) = fun key =>
        !startsAt start false key := by
      funext key
      simp [startsAt, ← not_le]
    obtain ⟨hlow, hhigh⟩ := hleaf.startPart start false
    rw [← hpred] at hlow hhigh
    dsimp only at h
    generalize partitionPoint (fun key => decide (key < start)) leaf.keys = i at h hlow hhigh
    have hkey : leaf.keys[i]? = (les.drop i).head?.map Prod.fst := by simp [hleaf.keys]
    have hall : before ++ les ++ after = (before ++ les.take i) ++ (les.drop i ++ after) := by
      simp only [append_assoc, ← append_assoc (les.take i), take_append_drop]
    rw [hall] at hs ⊢
    rw [exists_inDeleted_iff hs]
    · rw [hkey] at h
      cases hrest : les.drop i with
      | cons y ys =>
        rw [hrest] at h
        cases h
        simp
      | nil =>
        rw [hrest] at h
        exact probeNext_iff hpath h
    · exact forall_mem_append.mpr ⟨hbefore, fun x hx => by simpa [startsAt] using hlow x hx⟩
    · refine forall_mem_append.mpr ⟨fun x hx => by simpa [startsAt] using hhigh x hx, ?_⟩
      exact fun x hx => (hafter x hx).le

end Probe

/-! ### The rebuild -/

section Rebuild

variable {p : Manager} {start stop : Bytes} {fuel : Nat} {es : List Entry} {root : Option Cid}
  {out : List EmittedNode}

theorem collectNode_eval {level : Nat} {cid : Cid} (h : Subtree p level cid es) :
    StackLoop.Eval (fun _ => collectNode p) [cid] es := by
  induction level generalizing cid es with
  | zero =>
    obtain ⟨n, hn, hleaf⟩ := h
    refine .leaf (.of_forall fun _ => ?_)
    have hlen : n.keys.length = n.vals.length := by simp [hleaf.keys, hleaf.vals]
    simp [collectNode, hn, hleaf.leaf, hlen, hleaf.entries_eq]
  | succ level ih =>
    obtain ⟨n, kids, hn, hint, rfl, hkids⟩ := h
    have hstep : collectNode p cid = .ok (kids.map Child.cid, []) := by
      rw [collectNode, hn, ok_bind, hint.vals, mapM_childCidFromBytes]
      simp [hint.leaf]
    exact .single (.of_forall fun _ => hstep) (.of_forall fun c hc => ih (hkids c hc))

theorem collectEntries_eq {tree : Tree} {entries : List Entry} (hholds : Holds p tree.root es)
    (h : collectEntries p fuel tree = .ok entries) : entries = es := by
  refine StackLoop.Eval.eq_of_run ?_ h
  cases hroot : tree.root with
  | none =>
    rw [hroot] at hholds
    obtain rfl : es = [] := hholds
    exact .nil
  | some cid =>
    rw [hroot] at hholds
    obtain ⟨level, hsub⟩ := hholds
    exact collectNode_eval hsub

theorem EmittedNode.Made.encodes {n : EmittedNode} (h : n.Made p.digests p.format)
    (hvalid : p.format.validate = .ok ()) (hlayout : p.format.nodeLayout.BuiltIn) :
    n.node.Encodes p := by
  obtain ⟨leaf, level, rows, hemits⟩ := h
  exact hemits.encodes hvalid hlayout n mem_cons_self

theorem buildSorted_format {d : Digests} {format : TreeFormat}
    (h : buildSorted d format es = .ok (root, out)) :
    format.validate = .ok () ∧ format.nodeLayout.BuiltIn := by
  obtain ⟨b, hnew, -⟩ := of_bind h
  obtain ⟨hierarchy, hhier, -⟩ := of_bind hnew
  obtain ⟨leaf, hleaf, -⟩ := of_bind hhier
  exact LevelEmitter.new_format hleaf

/-- A build of entries that keeps their order has them as its effect. -/
theorem buildSorted_effect {tree : Tree} (hs : Sorted es) (hformat : tree.format = p.format)
    (horder : BuildsInOrder p.digests p.format es)
    (h : buildSorted p.digests p.format es = .ok (root, out)) :
    Written.Effect p ⟨{ tree with root }, out.map EmittedNode.node, out.map EmittedNode.node⟩
      es where
  holds q hext hstored := by
    rw [← hext.digests, ← hext.format] at h horder
    exact buildSorted_holds hs horder h (forall_mem_map.mp hstored)
  format := hformat
  encodes := by
    obtain ⟨hvalid, hlayout⟩ := buildSorted_format h
    exact forall_mem_map.mpr fun n hn => (buildSorted_made hs h n hn).encodes hvalid hlayout
  writes_subset _ hn := hn
  kept n hn := .inl ⟨n, hn, rfl⟩

end Rebuild

/-! ### The deletion -/

section Deletion

variable {p : Manager} {start stop : Bytes} {fuel : Nat} {es : List Entry} {tree : Tree}
  {w : Written}

/-- What a deletion does to a tree that holds entries: nothing, the splice, or the rebuild. -/
theorem deleteRange_cases (hholds : Holds p tree.root es)
    (h : deleteRange p fuel tree start stop = .ok w) :
    (w = .unchanged tree ∧ ∀ x ∈ es, inDeleted start stop x.1 = false) ∨
      tree.format = p.format ∧ (tryLocalizedHeightTwo p tree start stop = .ok (some w) ∨
        (∃ x ∈ es, inDeleted start stop x.1 = true) ∧ rebuildOutside p fuel tree start stop =
            .ok w) := by
  unfold deleteRange at h
  split at h
  · next hroot =>
    cases h
    rw [hroot] at hholds
    obtain rfl : es = [] := hholds
    exact .inl ⟨rfl, by simp⟩
  split at h
  · next hle =>
    cases h
    refine .inl ⟨rfl, fun x _ => ?_⟩
    by_contra hdel
    obtain ⟨hstart, hstop⟩ := inDeleted_eq_true.mp (by simpa using hdel)
    exact (hstart.trans_lt hstop).not_ge hle
  obtain ⟨root, hload, h⟩ := of_bind h
  split at h
  · cases h
  next hformat =>
  have hformat : tree.format = p.format :=
    (not_not.mp hformat).symm.trans (Manager.loadArc_eq_ok.mp hload).2.2
  obtain ⟨localized, hlocalized, h⟩ := of_bind h
  cases localized with
  | some out =>
    cases h
    exact .inr ⟨hformat, .inl hlocalized⟩
  | none =>
    obtain ⟨has, hhas, h⟩ := of_bind h
    have hiff := rangeHasEntry_iff hholds hhas
    split at h
    · next hyes => exact .inr ⟨hformat, .inr ⟨hiff.mp hyes, h⟩⟩
    · next hno =>
      cases h
      rw [hiff] at hno
      exact .inl ⟨rfl, fun x hx => by simpa using fun hdel => hno ⟨x, hx, hdel⟩⟩

/-- A range without entries gives the tree back. -/
theorem deleteRange_unchanged (hholds : Holds p tree.root es)
    (hnone : ∀ x ∈ es, inDeleted start stop x.1 = false)
    (h : deleteRange p fuel tree start stop = .ok w) : w = .unchanged tree := by
  rcases deleteRange_cases hholds h with ⟨hw, -⟩ | ⟨hformat, hlocalized | ⟨⟨x, hx, hdel⟩, -⟩⟩
  · exact hw
  · exact (tryLocalizedHeightTwo_effect hholds hformat hlocalized).2 hnone
  · simp [hnone x hx] at hdel

/-- The deletion leaves what lies outside the range, where the builder keeps the order of
that. -/
theorem deleteRange_effect (hholds : Holds p tree.root es)
    (hdel : ∃ x ∈ es, inDeleted start stop x.1 = true)
    (horder : BuildsInOrder p.digests p.format (keepOutside start stop es))
    (h : deleteRange p fuel tree start stop = .ok w) : w.Effect p (keepOutside start stop es) := by
  rcases deleteRange_cases hholds h with ⟨-, hnone⟩ | ⟨hformat, hlocalized | ⟨-, hrebuild⟩⟩
  · obtain ⟨x, hx, hdel⟩ := hdel
    simp [hnone x hx] at hdel
  · exact (tryLocalizedHeightTwo_effect hholds hformat hlocalized).1
  · obtain ⟨entries, hentries, h⟩ := of_bind hrebuild
    obtain ⟨⟨root, out⟩, hbuild, h⟩ := of_bind h
    cases h
    obtain rfl := collectEntries_eq hholds hentries
    rw [hformat] at hbuild
    exact buildSorted_effect (hholds.sorted.filter _) hformat horder hbuild

end Deletion

namespace Reversed

/-- Whether deleting `[A, B)` from the tree gives a tree with this root, of nodes of the
table. -/
def deletes (tree root : Cid) : Bool :=
  match deleteRange manager 20 ⟨some tree, format⟩ [65] [66] with
  | .ok w =>
    decide (w.tree = ⟨some root, format⟩) && (w.nodes ++ w.writes).all (· ∈ table.map Prod.fst)
  | .error _ => false

/-- What the check says of the deletion. -/
theorem of_deletes {tree root : Cid} (h : deletes tree root = true) :
    ∃ w, deleteRange manager 20 ⟨some tree, format⟩ [65] [66] = .ok w ∧
      w.tree = ⟨some root, format⟩ ∧ manager.batchPut w.writes = manager ∧
      manager.digests.CollisionFree (manager.nodes ∪ {n | n ∈ w.nodes}) := by
  unfold deletes at h
  split at h
  · next w hw =>
    obtain ⟨hroot, hall⟩ := Bool.and_eq_true_iff.mp h
    have hmem : ∀ n ∈ w.nodes ++ w.writes, n ∈ table.map Prod.fst := fun n hn =>
      of_decide_eq_true (all_eq_true.mp hall n hn)
    refine ⟨w, hw, of_decide_eq_true hroot, Manager.batchPut_stored fun n hn => ?_, ?_⟩
    · exact proper.stored (hmem n (mem_append_right _ hn))
    · exact proper.collisionFree fun n hn => hmem n (mem_append_left _ hn)
  · cases h

theorem deletes_eq : deletes uaCid aCid = true ∧ deletes udCid abdcCid = true ∧
    keepOutside [65] [66] [u, a] = [a] ∧ BuildsInOrder digests format [a] ∧
    d ∈ keepOutside [65] [66] [u, a, b, c, d] ∧ manager.get 5 abdc d.1 = .ok none := by
  decide +kernel

end Reversed

section

open Reversed

end

end Prolly

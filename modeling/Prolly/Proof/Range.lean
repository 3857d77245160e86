import Prolly.Proof.Key
import Prolly.Diff.Range

/-!
# Prolly.Proof.Range

Range proofs and range-page proofs list exactly the entries of their window, whoever
made them. Both verifiers walk the proof nodes from the root, so the nodes they
visit are nodes of the tree (`Authentic`); what remains is that a child
they skip holds nothing in the window. `Window.Lawful` collects what that needs of
the bounds, and the two kinds of bounds are shown to provide it.
-/

namespace Prolly

open SortedAssoc (Sorted lookup firstKey)
open List Bool

/-! ### Windows -/

namespace Window

variable {w : Window}

def restrict (w : Window) (es : List Entry) : List Entry := es.filter fun e => w.contains e.1

@[simp] theorem restrict_append (w : Window) (xs ys : List Entry) :
    w.restrict (xs ++ ys) = w.restrict xs ++ w.restrict ys := filter_append ..

theorem restrict_eq_nil {es : List Entry} (h : ∀ e ∈ es, ¬ w.contains e.1 = true) :
    w.restrict es = [] := filter_eq_nil_iff.mpr h

/-- The three tests of a window agree: its keys lie in the bounds of the index search,
none of them in a span that does not overlap, and none anywhere when it is empty. -/
structure Lawful (w : Window) : Prop where
  inside : ∀ key, w.contains key = true → w.bounds.contains key = true
  missed : ∀ (s : ChildSpan) (es : List Entry), Bounded s.stop es → (∀ e ∈ es, s.start ≤ e.1) →
    w.overlaps s = false → ∀ e ∈ es, ¬ w.contains e.1 = true
  empty : w.isEmptyByBounds = true → ∀ key, ¬ w.contains key = true

namespace Lawful

/-- The index window covers the keys. -/
theorem restrict_bounds (h : w.Lawful) (es : List Entry) :
    w.restrict (w.bounds.restrict es) = w.restrict es := by
  rw [restrict, restrict, KeyRange.restrict, filter_filter]
  refine filter_congr fun e _ => ?_
  by_cases hc : w.contains e.1 = true
  · simp [hc, h.inside _ hc]
  · simp [hc]

/-- A child whose span misses the window holds nothing in it. -/
theorem restrict_of_not_overlaps (h : w.Lawful) {p : Manager} {l : Nat} {s : ChildSpan} {c : Child}
    (hs : SpanOf p l s c) (hover : w.overlaps s = false) : w.restrict c.entries = [] :=
  restrict_eq_nil (h.missed s c.entries hs.bounded hs.start_le hover)

/-- Entries from the end of the window on are not in it. -/
theorem restrict_of_starts (h : w.Lawful) {start : Bytes} {es : List Entry}
    (hends : endsBeforeOrAt w.bounds.stop start = true) (hs : ∀ e ∈ es, start ≤ e.1) :
    w.restrict es = [] := by
  rw [← h.restrict_bounds es, KeyRange.restrict_of_starts hends hs]
  rfl

end Lawful

end Window

/-- A range with its start included. -/
theorem KeyRange.window_lawful (r : KeyRange) : r.window.Lawful where
  inside _ h := h
  missed s es hbounded hstart hover e he hc := by
    have hnil := KeyRange.restrict_of_not_overlaps (r := r) (eq_false_iff.mp hover) hbounded hstart
    exact filter_eq_nil_iff.mp hnil e he hc
  empty hempty key hc := by
    obtain ⟨hge, hlt⟩ := KeyRange.contains_iff.mp hc
    cases hstop : r.stop with
    | none => simp [window, hstop, endsBeforeOrAt] at hempty
    | some stop =>
      have hle : stop ≤ r.start := by simpa [window, hstop, endsBeforeOrAt] using hempty
      exact (hge.trans_lt (hlt stop hstop)).not_ge hle

namespace PageRange

variable {r : PageRange} {key : Bytes}

def restrict (r : PageRange) (es : List Entry) : List Entry := es.filter fun e => r.contains e.1

theorem contains_iff :
    r.contains key = true ↔ (∀ after ∈ r.after, after < key) ∧ ∀ stop ∈ r.stop, key < stop := by
  obtain ⟨after, stop⟩ := r
  cases after <;> cases stop <;> simp [contains]

/-- A window that is empty by its bounds contains no key. -/
theorem not_contains_of_isEmptyByBounds (h : r.isEmptyByBounds = true) (key : Bytes) :
    ¬ r.contains key = true := by
  intro hc
  obtain ⟨hafter, hstop⟩ := contains_iff.mp hc
  obtain ⟨after, stop⟩ := r
  cases stop with
  | none => cases after <;> simp [isEmptyByBounds] at h
  | some stop =>
    have hlt : key < stop := hstop stop rfl
    cases after with
    | none =>
      obtain rfl : stop = [] := by simpa [isEmptyByBounds] using h
      exact not_lt_nil key hlt
    | some after =>
      have hle : stop ≤ after := by simpa [isEmptyByBounds] using h
      exact ((hafter after rfl).trans hlt).not_ge hle

/-- The index window covers the page. -/
theorem traversal_contains (h : r.contains key = true) : r.traversal.contains key = true := by
  obtain ⟨hafter, hstop⟩ := contains_iff.mp h
  refine KeyRange.contains_iff.mpr ⟨?_, hstop⟩
  obtain ⟨after, stop⟩ := r
  cases after with
  | none => exact not_lt.mp (not_lt_nil key)
  | some after => exact (hafter after rfl).le

/-- A page, with the key it resumes after excluded. -/
theorem window_lawful (r : PageRange) : r.window.Lawful where
  inside _ h := traversal_contains h
  missed s es hbounded hstart hover e he hc := by
    obtain ⟨hafter, hstop⟩ := contains_iff.mp hc
    have hover : r.overlaps s = false := hover
    rw [overlaps, and_eq_false_iff, not_eq_false', not_eq_false'] at hover
    rcases hover with h | h
    · cases ha : r.after with
      | none => simp [ha] at h
      | some after =>
        cases hstop' : s.stop with
        | none => simp [ha, hstop', endsBeforeOrAt] at h
        | some stop =>
          have hle : stop ≤ after := by simpa [ha, hstop', endsBeforeOrAt] using h
          have hlt := hbounded stop (by simp [hstop']) e he
          exact ((hafter after ha).trans hlt).not_ge hle
    · cases hr : r.stop with
      | none => simp [hr, endsBeforeOrAt] at h
      | some stop =>
        have hle : stop ≤ s.start := by simpa [hr, endsBeforeOrAt] using h
        exact (hstop stop hr).not_ge (hle.trans (hstart e he))
  empty hempty := not_contains_of_isEmptyByBounds hempty

end PageRange

/-! ### The walk -/

section Walk

variable {p : Manager} {nodes : List Node} {w : Window} {d : Digests} {es found : List Entry}
  {depth : Nat} {stack : List Cid}

/-- The loop over children finds what they hold in the window. -/
theorem verifyChildren_sound {node : Node} {l : Nat} (hw : w.Lawful)
    {verify : Cid → Option (List Entry)} {spans : List ChildSpan} {kids : List Child}
    (hspans : List.Forall₂ (SpanOf p l) spans kids) (hs : Sorted (Child.all kids))
    (hverify : ∀ c ∈ kids, ∀ es, verify c.cid = some es → es = w.restrict c.entries)
    (h : verifyChildren d nodes w node verify spans = some es) :
    es = w.restrict (Child.all kids) := by
  induction hspans generalizing es with
  | nil => exact (Option.some.inj h).symm
  | cons hspan hrest ih =>
    rename_i s c spans kids
    obtain ⟨-, hs', hlt⟩ := SortedAssoc.sorted_append.mp hs
    have ih := fun {es} => @ih es hs' fun d hd => hverify d (.tail _ hd)
    rw [Child.all_cons, Window.restrict_append]
    rw [verifyChildren] at h
    split at h
    · next hover =>
        rw [hw.restrict_of_not_overlaps hspan (by simpa using hover), nil_append]
        split at h
        · next hends =>
            -- the children after this one start past the window, too
            obtain rfl := Option.some.inj h
            obtain ⟨x, hx, hkey⟩ := SortedAssoc.exists_mem_firstKey hspan.subtree.nonempty
            refine (hw.restrict_of_starts hends fun e he => ?_).symm
            rw [hspan.start, ← hkey]
            exact (hlt x hx e he).le
        · exact ih h
    · rw [hspan.child] at h
      simp only [Cid.ofBytes_bytes, Option.bind_some, Option.bind_eq_some_iff] at h
      obtain ⟨child, -, h⟩ := h
      split at h
      · cases h
      · obtain ⟨now, hnow, h⟩ := Option.bind_eq_some_iff.mp h
        obtain ⟨later, hlater, rfl⟩ := Option.map_eq_some_iff.mp h
        rw [hverify c mem_cons_self now hnow, ih hlater]

/-- From the identifier of a subtree the verifier collects the entries of the subtree in
the window, whatever else the node map holds. -/
theorem verifyNode_sound (hauth : Authentic p nodes) (hw : w.Lawful) {cid : Cid} {level : Nat}
    (htree : Subtree p level cid es) (h : verifyNode p.digests nodes w depth stack cid =
      some found) :
    found = w.restrict es := by
  induction depth generalizing stack cid level es found with
  | zero => simp [verifyNode] at h
  | succ depth ih =>
    rw [verifyNode] at h
    split at h
    · cases h
    obtain ⟨node, hget, h⟩ := Option.bind_eq_some_iff.mp h
    obtain ⟨hmem, hcid⟩ := nodeMapGet_eq_some hget
    have hnode := hauth node hmem hcid htree
    cases level with
    | zero =>
      have hnode : node.IsLeaf es := hnode
      rw [if_pos hnode.leaf, hnode.entries_eq] at h
      exact (Option.some.inj h).symm
    | succ level =>
      obtain ⟨kids, hint, rfl, hkids⟩ := hnode
      rw [if_neg (by simp [hint.leaf])] at h
      have hK : Kids p level none kids := ⟨hkids, hint.sorted, by simp [Bounded]⟩
      obtain ⟨hspans, hsorted, hwindow⟩ := hK.window (r := w.bounds) hint
      rw [verifyChildren_sound hw hspans hsorted (fun c hc es hes => ?_) h,
        ← hw.restrict_bounds, hwindow, hw.restrict_bounds]
      exact ih (hkids c (take_subset _ _ (drop_subset _ _ hc))) hes

/-- A path without repetitions among the identifiers of `nodes` is not longer than
`nodes`. -/
theorem length_le_of_nodeMap (hnodup : stack.Nodup)
    (hsub : ∀ c ∈ stack, ∃ n, nodeMapGet d nodes c = some n) : stack.length ≤ nodes.length := by
  have hsubset : stack ⊆ nodes.map (Node.cid d) := by
    intro c hc
    obtain ⟨n, hn⟩ := hsub c hc
    obtain ⟨hmem, rfl⟩ := nodeMapGet_eq_some hn
    exact mem_map_of_mem hmem
  simpa using (subperm_of_subset hnodup hsubset).length_le

/-- The bound on the depth is not a restriction: from the number of nodes on it does not
matter. -/
theorem verifyNode_stable (hnodup : stack.Nodup)
    (hsub : ∀ c ∈ stack, ∃ n, nodeMapGet d nodes c = some n)
    (hdepth : nodes.length < depth + stack.length) (cid : Cid) :
    verifyNode d nodes w (depth + 1) stack cid = verifyNode d nodes w depth stack cid := by
  induction depth generalizing stack cid with
  | zero => have := length_le_of_nodeMap hnodup hsub; omega
  | succ depth ih =>
    rw [verifyNode, verifyNode]
    split
    · rfl
    · next hcid =>
        cases hget : nodeMapGet d nodes cid with
        | none => rfl
        | some node =>
          have hverify : verifyNode d nodes w (depth + 1) (cid :: stack) =
              verifyNode d nodes w depth (cid :: stack) :=
            funext fun child => ih (nodup_cons.mpr ⟨hcid, hnodup⟩)
              (forall_mem_cons.mpr ⟨⟨node, hget⟩, hsub⟩)
              (by rw [length_cons]; omega) child
          simp only [Option.bind_some, hverify]

theorem verifyNode_depth (cid : Cid) (extra : Nat) :
    verifyNode d nodes w (nodes.length + 1 + extra) [] cid =
      verifyNode d nodes w (nodes.length + 1) [] cid := by
  induction extra with
  | zero => rfl
  | succ extra ih =>
    rw [← ih]
    exact verifyNode_stable .nil (by simp) (by simp; omega) cid

theorem verifyWindow_sound {path : List Node} {root : Option Cid} (hauth : Authentic p path)
    (hw : w.Lawful) (hholds : Holds p root es)
    (h : verifyWindow w.isEmptyByBounds (fun nodes => verifyNode p.digests nodes w) root path =
      some found) : found = w.restrict es := by
  rw [verifyWindow] at h
  split at h
  · next hempty =>
      rw [Window.restrict_eq_nil fun e _ => hw.empty hempty e.1]
      split at h
      · exact (Option.some.inj h).symm
      · cases h
  · obtain ⟨nodes, hnodes, h⟩ := Option.bind_eq_some_iff.mp h
    obtain rfl : path = nodes := by
      rw [proofNodeMap] at hnodes
      split at hnodes
      · exact Option.some.inj hnodes
      · cases hnodes
    cases root with
    | none =>
      obtain rfl : es = [] := hholds
      dsimp only at h
      split at h
      · exact (Option.some.inj h).symm
      · cases h
    | some root =>
      obtain ⟨level, htree⟩ := hholds
      exact verifyNode_sound hauth hw htree h

end Walk

/-! ### Range proofs -/

section Sound

variable {p : Manager} {es : List Entry}

theorem verifyRangeProof_sound {proof : RangeProof} (hauth : Authentic p proof.path)
    (hholds : Holds p proof.root es) (hvalid : (verifyRangeProof p.digests proof).valid = true) :
    (verifyRangeProof p.digests proof).entries = proof.range.restrict es := by
  obtain ⟨found, hfound⟩ := Option.isSome_iff_exists.mp hvalid
  simp only [verifyRangeProof, hfound, Option.getD_some]
  exact verifyWindow_sound hauth proof.range.window_lawful hholds hfound

theorem verifyRangePageProof_sound {proof : RangePageProof} (hauth : Authentic p proof.path)
    (hholds : Holds p proof.root es)
    (hvalid : (verifyRangePageProof p.digests proof).valid = true) :
    (verifyRangePageProof p.digests proof).entries = proof.range.restrict es := by
  obtain ⟨found, hfound⟩ := Option.isSome_iff_exists.mp hvalid
  simp only [verifyRangePageProof, hfound, Option.getD_some]
  exact verifyWindow_sound hauth proof.range.window_lawful hholds hfound

/-- A valid range proof over the root of a tree lists the entries with
`start ≤ key < end`, and a valid page proof those with `after < key < end`, in key order:
nothing is hidden, added or altered. -/
theorem rangeProofs_sound {root : Option Cid} (hholds : Holds p root es) :
    (∀ proof : RangeProof, proof.root = root → Admissible p proof.path →
      (verifyRangeProof p.digests proof).valid = true →
      Sorted (verifyRangeProof p.digests proof).entries ∧
      ∀ e, e ∈ (verifyRangeProof p.digests proof).entries ↔
        e ∈ es ∧ proof.range.start ≤ e.1 ∧ ∀ stop ∈ proof.range.stop, e.1 < stop) ∧
    (∀ proof : RangePageProof, proof.root = root → Admissible p proof.path →
      (verifyRangePageProof p.digests proof).valid = true →
      Sorted (verifyRangePageProof p.digests proof).entries ∧
      ∀ e, e ∈ (verifyRangePageProof p.digests proof).entries ↔
        e ∈ es ∧ (∀ after ∈ proof.range.after, after < e.1) ∧
          ∀ stop ∈ proof.range.stop, e.1 < stop) := by
  constructor
  · intro proof hroot hadm hvalid
    rw [verifyRangeProof_sound hadm.authentic (hroot ▸ hholds) hvalid]
    refine ⟨hholds.sorted.filter _, fun e => ?_⟩
    rw [KeyRange.restrict, mem_filter, KeyRange.contains_iff]
  · intro proof hroot hadm hvalid
    rw [verifyRangePageProof_sound hadm.authentic (hroot ▸ hholds) hvalid]
    refine ⟨hholds.sorted.filter _, fun e => ?_⟩
    rw [PageRange.restrict, mem_filter, PageRange.contains_iff]

end Sound

section

open Reversed

/-- Of `{u, a, b, c}` the entries in `[a, cc)`, without the node over `cc`, and those after `b`. -/
theorem rangeProofs_sound_uabc :
    (∀ e, e ∈ (verifyRangeProof digests ⟨uabc.root, ⟨a.1, some c.1⟩,
        path [ucCid, uaCid, aCid, bcCid, bCid]⟩).entries ↔
      e ∈ [u, a, b, c] ∧ a.1 ≤ e.1 ∧ ∀ stop ∈ some c.1, e.1 < stop) ∧
    ∀ e, e ∈ (verifyRangePageProof digests ⟨uabc.root, ⟨some b.1, none⟩,
        path [ucCid, bcCid, bCid, cCid]⟩).entries ↔
      e ∈ [u, a, b, c] ∧ (∀ after ∈ some b.1, after < e.1) ∧ ∀ stop ∈ none, e.1 < stop := by
  have h := rangeProofs_sound holds_uabc
  have hvalid : (verifyRangeProof digests ⟨uabc.root, ⟨a.1, some c.1⟩,
        path [ucCid, uaCid, aCid, bcCid, bCid]⟩).valid = true ∧
      (verifyRangePageProof digests ⟨uabc.root, ⟨some b.1, none⟩,
        path [ucCid, bcCid, bCid, cCid]⟩).valid = true := by
    decide +kernel
  exact ⟨(h.1 ⟨_, ⟨a.1, some c.1⟩, _⟩ rfl (path_admissible _) hvalid.1).2,
    (h.2 ⟨_, ⟨some b.1, none⟩, _⟩ rfl (path_admissible _) hvalid.2).2⟩

end

end Prolly

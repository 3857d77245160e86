import Prolly.Emitter
import Prolly.Store

/-!
# Prolly.Forest

A list of node summaries stands for the entries below the nodes it names. Writers
work on such lists: they keep some summaries of the old tree, emit new nodes, and
build the next level from the summaries. `Forest q level ss es` says that the
summaries `ss` name subtrees of one height whose entries are `es` in order.

Feeding a forest to an emitter gives a forest one level up over the same entries
(`Emits.forest`), and entries fed to a leaf emitter give a forest of leaves
(`Emits.leaves`), as soon as the emitted nodes are stored. Nothing here depends on
where the emitter cuts.
-/

namespace Prolly

open SortedAssoc (Sorted firstKey)
open List
open LevelEmitter (entryRow childRow)

/-- How a parent names a child. -/
def Child.summary (c : Child) : NodeSummary := ⟨c.cid, firstKey c.entries, c.entries.length⟩

/-- The node can be loaded by its content identifier. -/
def Stored (q : Manager) (n : Node) : Prop := q.loadArc (n.cid q.digests) = .ok n

/-- `q` is `p` with more nodes stored. -/
structure Extends (p q : Manager) : Prop where
  digests : q.digests = p.digests
  format : q.format = p.format
  loads : ∀ cid n, p.loadArc cid = .ok n → q.loadArc cid = .ok n

/-- The summaries name subtrees of height `level` that hold `es` in order. -/
def Forest (q : Manager) (level : Nat) (ss : List NodeSummary) (es : List Entry) : Prop :=
  ∃ kids : List Child, ss = kids.map Child.summary ∧
    (∀ c ∈ kids, Subtree q level c.cid c.entries) ∧ es = Child.all kids

namespace Forest

variable {p q : Manager} {level : Nat} {ss ss' : List NodeSummary} {es es' : List Entry}
  {s : NodeSummary}

theorem nil : Forest q level [] [] := ⟨[], rfl, by simp, rfl⟩

theorem append (h : Forest q level ss es) (h' : Forest q level ss' es') :
    Forest q level (ss ++ ss') (es ++ es') := by
  obtain ⟨kids, rfl, hkids, rfl⟩ := h
  obtain ⟨kids', rfl, hkids', rfl⟩ := h'
  refine ⟨kids ++ kids', by simp, ?_, by simp⟩
  intro c hc
  rcases mem_append.mp hc with hc | hc
  · exact hkids c hc
  · exact hkids' c hc

/-- A forest is cut where its summaries are. -/
theorem split (h : Forest q level (ss ++ ss') es) :
    ∃ es1 es2, es = es1 ++ es2 ∧ Forest q level ss es1 ∧ Forest q level ss' es2 := by
  obtain ⟨kids, hss, hkids, rfl⟩ := h
  obtain ⟨ks, ks', rfl, rfl, rfl⟩ := append_eq_map_iff.mp hss
  exact ⟨_, _, Child.all_append ks ks', ⟨ks, rfl, fun c hc => hkids c (mem_append_left _ hc), rfl⟩,
    ⟨ks', rfl, fun c hc => hkids c (mem_append_right _ hc), rfl⟩⟩

theorem singleton (h : Forest q level [s] es) :
    Subtree q level s.cid es ∧ s.firstKey = firstKey es ∧ s.count = es.length := by
  obtain ⟨kids, hss, hkids, rfl⟩ := h
  obtain ⟨c, rfl, rfl⟩ : ∃ c, kids = [c] ∧ s = c.summary := by
    cases kids with
    | nil => simp at hss
    | cons c kids =>
      cases kids with
      | nil => exact ⟨c, rfl, by simpa using hss⟩
      | cons c' kids => simp at hss
  have hc := hkids c (by simp)
  refine ⟨by simpa [Child.summary] using hc, ?_, ?_⟩
  · simp [Child.summary]
  · simp [Child.summary]

theorem of_subtree (h : Subtree q level s.cid es) (hkey : s.firstKey = firstKey es)
    (hcount : s.count = es.length) : Forest q level [s] es := by
  refine ⟨[⟨s.cid, es⟩], ?_, by simpa using h, by simp⟩
  cases s
  simp_all [Child.summary]

theorem cons {s : NodeSummary} (h : Forest q level (s :: ss) es) :
    ∃ es1 es2, es = es1 ++ es2 ∧ Forest q level [s] es1 ∧ Forest q level ss es2 := by
  rw [← singleton_append] at h
  exact h.split

theorem eq_nil_iff (h : Forest q level ss es) : ss = [] ↔ es = [] := by
  obtain ⟨kids, rfl, hkids, rfl⟩ := h
  rw [map_eq_nil_iff]
  constructor
  · rintro rfl
    rfl
  · intro hall
    by_contra hne
    exact Child.all_ne_nil hne (fun c hc => (hkids c hc).nonempty) hall

theorem mono (hpq : Extends p q) (h : Forest p level ss es) : Forest q level ss es := by
  obtain ⟨kids, hss, hkids, hes⟩ := h
  exact ⟨kids, hss, fun c hc => (hkids c hc).mono hpq.loads, hes⟩

/-- One summary is a tree. -/
theorem holds (h : Forest q level [s] es) : Holds q (some s.cid) es :=
  ⟨level, h.singleton.1⟩

/-- Two forests with the same identifiers hold the same entries. -/
theorem eq_of_cids (h : Forest q level ss es) (h' : Forest q level ss' es')
    (hcids : ss.map NodeSummary.cid = ss'.map NodeSummary.cid) : es = es' ∧ ss = ss' := by
  obtain ⟨kids, rfl, hkids, rfl⟩ := h
  obtain ⟨kids', rfl, hkids', rfl⟩ := h'
  have hbytes : (kids.map fun c => c.cid.bytes) = kids'.map fun c => c.cid.bytes := by
    simpa [Child.summary, Function.comp_def] using congrArg (List.map Cid.bytes) hcids
  have heq : kids = kids' := Subtree.kids_unique (fun h h' => (h.unique h').2) hbytes hkids hkids'
  exact ⟨by rw [heq], by rw [heq]⟩

/-- The first keys of the parts of a sorted list increase. -/
theorem firstKey_le (h : Forest q level (s :: ss) es) (hs : Sorted es) :
    ∀ e ∈ es, s.firstKey ≤ e.1 := by
  obtain ⟨es1, es2, rfl, h1, -⟩ := h.cons
  intro e he
  rw [h1.singleton.2.1, ← SortedAssoc.firstKey_append h1.singleton.1.nonempty es2]
  exact hs.firstKey_le he

end Forest

/-! ### Emitting over a forest -/

variable {α : Type} (format : TreeFormat) {es : List Entry} {kids : List Child} {q : Manager}
  {n : Node} {level : Nat}

/-- A list whose image is cut into pieces is cut into pieces itself. -/
theorem exists_chunks {β : Type} {f : α → β} {xs : List α} {chunks : List (List β)}
    (h : xs.map f = chunks.flatten) :
    ∃ parts : List (List α), xs = parts.flatten ∧ chunks = parts.map (List.map f) := by
  induction chunks generalizing xs with
  | nil =>
    have hxs : xs = [] := by simpa using h
    exact ⟨[], by simp [hxs], rfl⟩
  | cons c chunks ih =>
    rw [flatten_cons] at h
    obtain ⟨ys, zs, rfl, rfl, hzs⟩ := map_eq_append_iff.mp h
    obtain ⟨parts, rfl, rfl⟩ := ih hzs
    exact ⟨ys :: parts, by simp, by simp⟩

theorem Sorted.of_mem_flatten {parts : List (List Entry)} (hs : Sorted parts.flatten)
    {part : List Entry} (h : part ∈ parts) : Sorted part :=
  hs.sublist (sublist_flatten_of_mem h)

/-- The leaf made of entries. -/
theorem isLeaf_ofRows (hne : es ≠ []) (hs : Sorted es) :
    (Node.ofRows format true 0 (es.map entryRow)).IsLeaf es where
  leaf := rfl
  level := rfl
  keys := by simp [Node.ofRows, entryRow, Function.comp_def]
  vals := by simp [Node.ofRows, entryRow, Function.comp_def]
  counts := rfl
  nonempty := hne
  sorted := hs

/-- The internal node made of children. -/
theorem isInternal_ofRows (level : Nat) (hne : kids ≠ []) (hs : Sorted (Child.all kids)) :
    (Node.ofRows format false level
      ((kids.map Child.summary).map childRow)).IsInternal level kids where
  leaf := rfl
  level := rfl
  keys := by simp [Node.ofRows, childRow, Child.summary, Function.comp_def]
  vals := by simp [Node.ofRows, childRow, Child.summary, Function.comp_def]
  counts := by simp [Node.ofRows, childRow, Child.summary, Function.comp_def]
  nonempty := hne
  sorted := hs

theorem Child.length_all (kids : List Child) :
    (Child.all kids).length = (kids.map fun c => c.entries.length).sum := by
  induction kids with
  | nil => rfl
  | cons c kids ih => simp [ih]

/-- A stored leaf is a forest of one. -/
theorem Node.IsLeaf.forest (h : n.IsLeaf es) (hstored : Stored q n) :
    Forest q 0 [n.summary q.digests] es := by
  refine .of_subtree ⟨n, hstored, h⟩ ?_ ?_
  · cases es with
    | nil => exact absurd rfl h.nonempty
    | cons e es => simp [Node.summary, Node.headKey, h.keys]
  · simp [Node.summary, Node.storedCount, h.leaf, h.keys]

/-- A stored internal node over stored children is a forest of one. -/
theorem Node.IsInternal.forest (h : n.IsInternal (level + 1) kids)
    (hkids : ∀ c ∈ kids, Subtree q level c.cid c.entries) (hstored : Stored q n) :
    Forest q (level + 1) [n.summary q.digests] (Child.all kids) := by
  refine .of_subtree ⟨n, kids, hstored, h, rfl, hkids⟩ ?_ ?_
  · cases kids with
    | nil => exact absurd rfl h.nonempty
    | cons c kids =>
      rw [Child.all_cons, SortedAssoc.firstKey_append (hkids c mem_cons_self).nonempty]
      simp [Node.summary, Node.headKey, h.keys]
  · simp [Node.summary, Node.storedCount, h.leaf, h.counts, Child.length_all]

/-- Forests side by side. -/
theorem Forest.flatten {parts : List α} {summary : α → NodeSummary} {entries : α → List Entry}
    (h : ∀ part ∈ parts, Forest q level [summary part] (entries part)) :
    Forest q level (parts.map summary) (parts.flatMap entries) := by
  induction parts with
  | nil => exact .nil
  | cons part parts ih =>
    exact (h part mem_cons_self).append (ih fun x hx => h x (.tail _ hx))

theorem Child.all_flatten (parts : List (List Child)) :
    Child.all parts.flatten = parts.flatMap Child.all := by
  induction parts with
  | nil => rfl
  | cons part parts ih => simp [ih]

/-- The first key of the leaves ahead separates what lies before from what they hold. -/
theorem Forest.nextFirst {olds : List NodeSummary} {xs : List Entry} (h : Forest q level olds es)
    (hs : Sorted (xs ++ es)) :
    (∀ next, olds.head?.map NodeSummary.firstKey = some next →
      (∀ x ∈ xs, x.1 < next) ∧ ∀ x ∈ es, next ≤ x.1) ∧
    (olds.head?.map NodeSummary.firstKey = none → es = []) := by
  obtain ⟨-, hes, hlt⟩ := SortedAssoc.sorted_append.mp hs
  cases olds with
  | nil => exact ⟨by simp, fun _ => h.eq_nil_iff.mp rfl⟩
  | cons old olds =>
    refine ⟨?_, by simp⟩
    rintro next hnext
    obtain rfl : old.firstKey = next := by simpa using hnext
    refine ⟨fun x hx => ?_, h.firstKey_le hes⟩
    obtain ⟨es1, es2, rfl, hold, -⟩ := h.cons
    obtain ⟨hsub, hfirst, -⟩ := hold.singleton
    obtain ⟨y, hy, hyk⟩ := SortedAssoc.exists_mem_firstKey hsub.nonempty
    rw [hfirst, ← hyk]
    exact hlt x hx y (mem_append_left _ hy)

namespace Emits

variable {q : Manager} {out : List EmittedNode} {es : List Entry}

/-- Entries fed to a leaf emitter come out as leaves. -/
theorem leaves (hs : Sorted es)
    (h : Emits q.digests q.format true 0 (es.map entryRow) out [])
    (hstored : ∀ n ∈ out, Stored q n.node) : Forest q 0 (out.map EmittedNode.summary) es := by
  obtain ⟨chunks, hne, hrows, rfl⟩ := h
  obtain ⟨parts, rfl, rfl⟩ := exists_chunks (by simpa using hrows)
  have hpart : ∀ part ∈ parts, Forest q 0
      [(Node.ofRows q.format true 0 (part.map entryRow)).summary q.digests] part := by
    intro part hmem
    have hnonempty : part ≠ [] := by
      simpa using hne (part.map entryRow) (mem_map_of_mem hmem)
    refine (isLeaf_ofRows q.format hnonempty (Sorted.of_mem_flatten hs hmem)).forest ?_
    exact hstored (.of q.digests _) (mem_map_of_mem (mem_map_of_mem hmem))
  have hall := Forest.flatten hpart
  rw [flatMap_id'] at hall
  simpa [EmittedNode.of, Function.comp_def] using hall

/-- A forest fed to an emitter comes out as a forest one level up. -/
theorem forest {level : Nat} {ss : List NodeSummary} (hs : Sorted es)
    (hforest : Forest q level ss es)
    (h : Emits q.digests q.format false (level + 1) (ss.map childRow) out [])
    (hstored : ∀ n ∈ out, Stored q n.node) :
    Forest q (level + 1) (out.map EmittedNode.summary) es := by
  obtain ⟨kids, rfl, hkids, rfl⟩ := hforest
  obtain ⟨chunks, hne, hrows, rfl⟩ := h
  rw [map_map, append_nil] at hrows
  obtain ⟨parts, rfl, rfl⟩ := exists_chunks hrows
  rw [Child.all_flatten] at hs ⊢
  have hpart : ∀ part ∈ parts, Forest q (level + 1) [(Node.ofRows q.format false (level + 1)
      (part.map (childRow ∘ Child.summary))).summary q.digests] (Child.all part) := by
    intro part hmem
    have hnonempty : part ≠ [] := by
      simpa using hne (part.map (childRow ∘ Child.summary)) (mem_map_of_mem hmem)
    have hsorted : Sorted (Child.all part) :=
      hs.sublist (sublist_flatten_of_mem (mem_map_of_mem hmem))
    have hnode := isInternal_ofRows q.format (level + 1) hnonempty hsorted
    rw [map_map] at hnode
    refine hnode.forest (fun c hc => hkids c (mem_flatten_of_mem hmem hc)) ?_
    exact hstored (.of q.digests _) (mem_map_of_mem (mem_map_of_mem hmem))
  simpa [EmittedNode.of, Function.comp_def] using Forest.flatten hpart

end Emits

end Prolly

import Prolly.Builder

/-!
# Prolly.Fixture

Stores to evaluate the model on, given by a table of nodes with their digests. A proper table is
a store without collisions (`Table.Proper.collisionFree`), in which each node of the table is
loaded by its digest (`Table.Proper.loadArc_eq`) and which holds what the builder builds out of
nodes of the table (`Table.Proper.built`).
-/

namespace Prolly

open List

/-- Nodes with their content identifiers. -/
abbrev Table := List (Node × Cid)

namespace Table

/-- The store that has the nodes of the table. -/
def manager (d : Digests) (format : TreeFormat) (table : Table) : Manager where
  digests := d
  format := format
  store cid := (table.find? fun row => row.2 = cid).map Prod.fst

/-- Nodes of one format under their digests, no identifier twice. -/
structure Proper (d : Digests) (format : TreeFormat) (table : Table) : Prop where
  cids : (table.map Prod.snd).Nodup
  digests : ∀ row ∈ table, row.1.cid d = row.2
  shapes : ∀ row ∈ table, row.1.format = format ∧ row.1.vals.length = row.1.keys.length ∧
    row.1.childCounts.length = if row.1.leaf then 0 else row.1.keys.length

instance (d : Digests) (format : TreeFormat) (table : Table) :
    Decidable (table.Proper d format) :=
  decidable_of_iff (_ ∧ _ ∧ _) ⟨fun h => ⟨h.1, h.2.1, h.2.2⟩, fun h =>
    ⟨h.cids, h.digests, h.shapes⟩⟩

/-- Whether building in this order gives a tree with this root, of nodes of the table. -/
def builds (table : Table) (d : Digests) (format : TreeFormat) (order : Order)
    (entries : List Entry) (root : Cid) : Bool :=
  match buildSortedWith order d format entries with
  | .ok (top, out) => decide (top = some root) && out.all fun n => n.node ∈ table.map Prod.fst
  | .error _ => false

variable {table : Table} {d : Digests} {format : TreeFormat} {row : Node × Cid} {n : Node}
  {order : Order} {entries : List Entry} {root : Cid}

theorem of_builds (h : table.builds d format order entries root = true) :
    ∃ out, buildSortedWith order d format entries = .ok (some root, out) ∧
      ∀ n ∈ out, n.node ∈ table.map Prod.fst := by
  unfold builds at h
  split at h
  · next top out hbuild =>
    obtain ⟨htop, hout⟩ := Bool.and_eq_true_iff.mp h
    obtain rfl := of_decide_eq_true htop
    exact ⟨out, hbuild, fun n hn => of_decide_eq_true (all_eq_true.mp hout n hn)⟩
  · cases h

/-- A row is found by its identifier. -/
theorem find?_eq (h : (table.map Prod.snd).Nodup) (hrow : row ∈ table) :
    table.find? (fun row' => row'.2 = row.2) = some row := by
  induction table with
  | nil => cases hrow
  | cons first table ih =>
    obtain ⟨hfirst, hrest⟩ := nodup_cons.mp h
    rcases mem_cons.mp hrow with rfl | hrow
    · simp
    · have hne : first.2 ≠ row.2 := fun heq => hfirst (heq ▸ mem_map_of_mem hrow)
      rw [List.find?_cons_of_neg (by simpa using hne), ih hrest hrow]

namespace Proper

variable (h : table.Proper d format)
include h

theorem loadArc_eq (hrow : row ∈ table) : (table.manager d format).loadArc row.2 = .ok row.1 := by
  refine Manager.loadArc_eq_ok.mpr ⟨?_, h.digests row hrow, (h.shapes row hrow).1⟩
  simp [manager, find?_eq h.cids hrow]

theorem stored (hn : n ∈ table.map Prod.fst) : Stored (table.manager d format) n := by
  obtain ⟨row, hrow, rfl⟩ := mem_map.mp hn
  have hload := h.loadArc_eq hrow
  rwa [← h.digests row hrow] at hload

omit h in
theorem mem_of_loadArc {cid : Cid} (hload : (table.manager d format).loadArc cid = .ok n) :
    n ∈ table.map Prod.fst := by
  obtain ⟨hstore, -, -⟩ := Manager.loadArc_eq_ok.mp hload
  obtain ⟨row, hfind, rfl⟩ := Option.map_eq_some_iff.mp hstore
  exact mem_map_of_mem (mem_of_find?_eq_some hfind)

theorem collisionFree {nodes : List Node} (hnodes : ∀ n ∈ nodes, n ∈ table.map Prod.fst) :
    d.CollisionFree ((table.manager d format).nodes ∪ {n | n ∈ nodes}) := by
  have hmem : ∀ n ∈ (table.manager d format).nodes ∪ {n | n ∈ nodes}, n ∈ table.map Prod.fst := by
    rintro n (⟨cid, hload⟩ | hn)
    · exact mem_of_loadArc hload
    · exact hnodes n hn
  intro n hn m hm hcid
  obtain ⟨row, hrow, rfl⟩ := mem_map.mp (hmem n hn)
  obtain ⟨row', hrow', rfl⟩ := mem_map.mp (hmem m hm)
  rw [h.digests row hrow, h.digests row' hrow'] at hcid
  have hfind := find?_eq h.cids hrow
  rw [hcid, find?_eq h.cids hrow'] at hfind
  rw [Option.some.inj hfind]

theorem decoded : ∀ n ∈ (table.manager d format).nodes, n.WellShaped := by
  rintro n ⟨cid, hload⟩
  obtain ⟨row, hrow, rfl⟩ := mem_map.mp (mem_of_loadArc hload)
  obtain ⟨-, hvals, hcounts⟩ := h.shapes row hrow
  exact ⟨hvals, fun hleaf => eq_nil_of_length_eq_zero (by simpa [hleaf] using hcounts),
    fun hleaf => by simpa [hleaf] using hcounts⟩

/-- What is built in order out of nodes of the table is a tree of the store. -/
theorem built (hs : SortedAssoc.Sorted entries)
    (hbuilds : table.builds d format oneAtATime entries root = true) :
    ∃ out, buildSorted d format entries = .ok (some root, out) ∧
      BuildsInOrder d format entries ∧ (∀ n ∈ out, n.node ∈ table.map Prod.fst) ∧
      Holds (table.manager d format) (some root) entries := by
  obtain ⟨out, hone, hout⟩ := of_builds hbuilds
  have horder : BuildsInOrder d format entries := by
    simp [BuildsInOrder, hone, Except.isOk, Except.toBool]
  have hbuild := ((buildInvariant_oneAtATime d format).build hs hone).1
  refine ⟨out, hbuild, horder, hout, ?_⟩
  exact buildSorted_holds (q := table.manager d format) hs horder hbuild
    fun n hn => h.stored (hout n hn)

end Proper

end Table

end Prolly

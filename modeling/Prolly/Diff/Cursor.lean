import Prolly.CascadeOrder
import Prolly.Scan.Iter

/-!
# Prolly.Diff.Cursor

`DiffCursor` (`cursor.rs`): the differences of two trees from two cursors that move through them in
step. A cursor has no way to report an error: a failed read makes it invalid, as the end of its tree
does. The other tree's remaining entries then count as additions or removals.

The stores that the cursors see may fail at any reads (`Manager.Partial`). If all nodes of both
trees can be read, the iterator yields the differences (`DiffCursor.Ahead.collect`). If not, a
cursor ends early: every entry that a cursor comes to is reached through nodes that were read
(`Cursor.Linked.visited`), so a cursor that comes to all entries has read the whole tree
(`Subtree.of_leads`). Hence the iterator is `Faithful` exactly if no read of it can fail
(`diffCursor_faithful_iff`).
-/

namespace Prolly

open SortedAssoc
open List hiding lookup

/-- `Cursor::advance`. -/
def Cursor.advance (q : Manager) (fuel : Nat) (c : Cursor) : Cursor :=
  (c.advanceBefore q fuel none).2

/-- `DiffCursor`. -/
structure DiffCursor where
  cursorBase : Cursor
  cursorOther : Cursor
  done : Bool

namespace DiffCursor

/-- `DiffCursor::new`. The two cursors read through `qb` and `qo`: what the store answers to each of
them. -/
def new (qb qo : Manager) (fuel : Nat) (base other : Tree) : Result DiffCursor :=
  if base.root = other.root then .ok ⟨.invalid, .invalid, true⟩
  else do
    let cursorBase ← Cursor.atItem qb fuel base []
    let cursorOther ← Cursor.atItem qo fuel other []
    return ⟨cursorBase, cursorOther, false⟩

/-- Leave the base entry. -/
def advanceBase (qb : Manager) (fuel : Nat) (it : DiffCursor) : DiffCursor :=
  { it with cursorBase := it.cursorBase.advance qb fuel }

/-- Leave the other entry. -/
def advanceOther (qo : Manager) (fuel : Nat) (it : DiffCursor) : DiffCursor :=
  { it with cursorOther := it.cursorOther.advance qo fuel }

/-- The entry at a cursor; `None` where a `?` of `next` returns. -/
def entryAt (c : Cursor) : Option Entry := do return (← c.getKey, ← c.getValue)

/-- The loop of `next`. -/
def nextLoop (qb qo : Manager) (fuel : Nat) : Nat → DiffCursor → Result (Option Diff × DiffCursor)
  | 0, _ => .error .outOfFuel
  | steps + 1, it =>
    match it.cursorBase.isValid, it.cursorOther.isValid with
    | false, false => .ok (none, { it with done := true })
    | false, true =>
      match entryAt it.cursorOther with
      | none => .ok (none, it)
      | some (key, val) => .ok (some (.added key val), it.advanceOther qo fuel)
    | true, false =>
      match entryAt it.cursorBase with
      | none => .ok (none, it)
      | some (key, val) => .ok (some (.removed key val), it.advanceBase qb fuel)
    | true, true =>
      match entryAt it.cursorBase, entryAt it.cursorOther with
      | some (baseKey, baseVal), some (otherKey, otherVal) =>
        if baseKey < otherKey then
          .ok (some (.removed baseKey baseVal), it.advanceBase qb fuel)
        else if otherKey < baseKey then
          .ok (some (.added otherKey otherVal), it.advanceOther qo fuel)
        else
          let it := (it.advanceBase qb fuel).advanceOther qo fuel
          if baseVal ≠ otherVal then .ok (some (.changed baseKey baseVal otherVal), it)
          else nextLoop qb qo fuel steps it
      | _, _ => .ok (none, it)

/-- `DiffCursor::next`. -/
def next (qb qo : Manager) (fuel : Nat) (it : DiffCursor) : Result (Option Diff × DiffCursor) :=
  if it.done then .ok (none, it) else nextLoop qb qo fuel fuel it

/-- All items that the iterator still has. -/
def collect (qb qo : Manager) (fuel : Nat) : Nat → DiffCursor → Result (List Diff)
  | 0, _ => .error .outOfFuel
  | steps + 1, it => do
      match ← it.next qb qo fuel with
      | (none, _) => .ok []
      | (some d, it) => return d :: (← collect qb qo fuel steps it)

end DiffCursor

/-- The entries that a cursor comes to. -/
def Cursor.visited (q : Manager) (fuel : Nat) : Nat → Cursor → List Entry
  | 0, _ => []
  | steps + 1, c =>
    match DiffCursor.entryAt c with
    | none => []
    | some e => e :: Cursor.visited q fuel steps (c.advance q fuel)

/-- A store that answers some of the reads of `p`; the others fail. -/
structure Manager.Partial (p q : Manager) : Prop where
  digests : q.digests = p.digests
  format : q.format = p.format
  reads : ∀ cid n, q.store cid = some n → p.store cid = some n

/-- No failed read shows in the differences: the iterator yields true differences only, and no
cursor ends before the last entry of its tree. -/
structure DiffCursor.Faithful (qb qo : Manager) (fuel : Nat) (it : DiffCursor)
    (bs os : List Entry) : Prop where
  items : ∃ ds, it.collect qb qo fuel fuel = .ok ds ∧
    ∀ d ∈ ds, IsDiff (lookup bs) (lookup os) d
  ends : it.done = false →
    it.cursorBase.visited qb fuel fuel = bs ∧ it.cursorOther.visited qo fuel fuel = os

/-! ### Cursors that reach every entry have read the tree -/

section Reads

variable {p q : Manager} {root cid : Cid} {frames : List PathFrame} {fuel : Nat} {e : Entry}
  {c : Cursor} {n : Node} {level : Nat} {kids : List Child} {es : List Entry}

/-- The frames are nodes that `q` reads, from `root` down to the parent of `cid`. -/
inductive FramesFrom (q : Manager) (root : Cid) : List PathFrame → Cid → Prop
  | nil : FramesFrom q root [] root
  | cons {frames : List PathFrame} {cid child : Cid} {n : Node} {index : Nat}
      (h : FramesFrom q root frames cid) (hn : q.store cid = some n) (hleaf : n.leaf = false)
      (hchild : n.childCid index = .ok child) : FramesFrom q root (⟨n, index⟩ :: frames) child

/-- The leaf of the cursor was read, and so were the nodes above it. -/
def Cursor.Linked (q : Manager) (root : Cid) (c : Cursor) : Prop :=
  c.node.leaf = true ∧ ∃ cid, FramesFrom q root c.parents cid ∧ q.store cid = some c.node

/-- Nodes that `q` reads lead from `cid` to a leaf with the entry. -/
inductive Leads (q : Manager) : Cid → Entry → Prop
  | leaf {cid : Cid} {n : Node} {e : Entry} (hn : q.store cid = some n) (hleaf : n.leaf = true)
      (he : e ∈ n.entries) : Leads q cid e
  | node {cid child : Cid} {n : Node} {index : Nat} {e : Entry} (hn : q.store cid = some n)
      (hleaf : n.leaf = false) (hchild : n.childCid index = .ok child) (h : Leads q child e) :
      Leads q cid e

theorem FramesFrom.leads (h : FramesFrom q root frames cid) (he : Leads q cid e) :
    Leads q root e := by
  induction h with
  | nil => exact he
  | cons _ hn hleaf hchild ih => exact ih (.node hn hleaf hchild he)

theorem Cursor.store_of_loadNode (h : Cursor.loadNode q cid = .ok n) : q.store cid = some n := by
  unfold Cursor.loadNode at h
  split at h <;> cases h
  assumption

theorem FramesFrom.descendAt (h : FramesFrom q root frames cid) {index : Node → Nat}
    (hc : Cursor.descendAt q index fuel frames cid = .ok c) : c.Linked q root := by
  induction fuel generalizing frames cid with
  | zero => cases hc
  | succ fuel ih =>
    obtain ⟨n, hn, hc⟩ := of_bind hc
    have hstore := Cursor.store_of_loadNode hn
    split at hc
    · next hleaf =>
      cases hc
      exact ⟨hleaf, cid, h, hstore⟩
    · next hleaf =>
      obtain ⟨child, hchild, hc⟩ := of_bind hc
      exact ih (.cons h hstore (Bool.eq_false_iff.mpr hleaf) hchild) hc

theorem FramesFrom.advanceViaParentBefore (h : FramesFrom q root frames cid)
    (hc : Cursor.advanceViaParentBefore q fuel none frames = some c) : c.Linked q root := by
  induction h with
  | nil => cases hc
  | @cons frames cid child n index h hn hleaf hchild ih =>
    rw [Cursor.advanceViaParentBefore] at hc
    split at hc
    · split at hc
      · cases hc
      · split at hc
        · next c' hdown =>
          cases hc
          obtain ⟨child', hchild', hdown⟩ := of_bind hdown
          exact (FramesFrom.cons h hn hleaf hchild').descendAt hdown
        · cases hc
    · exact ih hc

theorem Cursor.Linked.advance (h : c.Linked q root) (hvalid : (c.advance q fuel).isValid = true) :
    (c.advance q fuel).Linked q root := by
  obtain ⟨hleaf, cid, hlinked, hstore⟩ := h
  unfold Cursor.advance Cursor.advanceBefore at hvalid ⊢
  split
  · exact ⟨hleaf, cid, hlinked, hstore⟩
  · split
    · split
      · next h1 h2 h3 =>
        rw [if_neg h1, if_pos h2, if_pos h3] at hvalid
        simp [Cursor.isValid] at hvalid
      · exact ⟨hleaf, cid, hlinked, hstore⟩
    · next h1 h2 =>
      rw [if_neg h1, if_neg h2] at hvalid
      split
      · next c' hc' => exact hlinked.advanceViaParentBefore hc'
      · next hnone =>
        rw [hnone] at hvalid
        simp [Cursor.isValid] at hvalid

theorem entryAt_mem (h : DiffCursor.entryAt c = some e) :
    c.isValid = true ∧ e ∈ c.node.entries := by
  obtain ⟨key, hkey, h⟩ := Option.bind_eq_some_iff.mp h
  obtain ⟨val, hval, h⟩ := Option.bind_eq_some_iff.mp h
  cases h
  unfold Cursor.getKey at hkey
  unfold Cursor.getValue at hval
  split at hkey
  · next hvalid =>
    split at hval
    · exact ⟨hvalid, mem_of_getElem? (List.getElem?_zip_eq_some.mpr ⟨hkey, hval⟩)⟩
    · cases hval
  · cases hkey

/-- Every entry that a cursor comes to is reached through nodes that were read. -/
theorem Cursor.Linked.visited (steps : Nat) (h : c.isValid = true → c.Linked q root) :
    ∀ e ∈ c.visited q fuel steps, Leads q root e := by
  induction steps generalizing c with
  | zero => exact fun e he => nomatch he
  | succ steps ih =>
    rw [Cursor.visited]
    split
    · exact fun e he => nomatch he
    · next e hentry =>
      obtain ⟨hvalid, hmem⟩ := entryAt_mem hentry
      obtain ⟨hleaf, cid, hlinked, hstore⟩ := h hvalid
      refine forall_mem_cons.mpr ⟨hlinked.leads (.leaf hstore hleaf hmem), ih fun hvalid' => ?_⟩
      exact (h hvalid).advance hvalid'

/-- The node that `q` reads at the end of a chain is the one of `p`. -/
theorem Leads.stored (hq : p.Partial q) (h : Leads q cid e) (hn : p.loadArc cid = .ok n) :
    q.loadArc cid = .ok n := by
  obtain ⟨hstore, hcid, hformat⟩ := Manager.loadArc_eq_ok.mp hn
  obtain ⟨n', hn'⟩ : ∃ n', q.store cid = some n' := by
    cases h with
    | leaf hn' _ _ => exact ⟨_, hn'⟩
    | node hn' _ _ _ => exact ⟨_, hn'⟩
  rw [hq.reads cid n' hn'] at hstore
  cases hstore
  exact Manager.loadArc_eq_ok.mpr ⟨hn', by rw [hq.digests, hcid], by rw [hq.format, hformat]⟩

theorem Node.IsInternal.exists_child {index : Nat} {child : Cid} (h : n.IsInternal level kids)
    (hchild : n.childCid index = .ok child) : ∃ c ∈ kids, c.cid = child := by
  unfold Node.childCid at hchild
  split at hchild
  · cases hchild
  · next bytes hbytes =>
    rw [h.vals, List.getElem?_map] at hbytes
    obtain ⟨c, hc, rfl⟩ := Option.map_eq_some_iff.mp hbytes
    rw [childCidFromBytes_bytes] at hchild
    exact ⟨c, mem_of_getElem? hc, Except.ok.inj hchild⟩

/-- A chain leads to entries of the tree. -/
theorem Leads.mem (hq : p.Partial q) (hsub : Subtree p level cid es) (h : Leads q cid e) :
    e ∈ es := by
  induction level generalizing cid es with
  | zero =>
    obtain ⟨n, hn, hleaf⟩ := hsub
    have hread := (Manager.loadArc_eq_ok.mp (h.stored hq hn)).1
    cases h with
    | leaf hn' _ he =>
      rw [hread] at hn'
      cases hn'
      rwa [hleaf.entries_eq] at he
    | node hn' hinner _ _ =>
      rw [hread] at hn'
      cases hn'
      rw [hleaf.leaf] at hinner
      cases hinner
  | succ level ih =>
    obtain ⟨n, kids, hn, hint, rfl, hkids⟩ := hsub
    have hread := (Manager.loadArc_eq_ok.mp (h.stored hq hn)).1
    cases h with
    | leaf hn' hleaf _ =>
      rw [hread] at hn'
      cases hn'
      rw [hint.leaf] at hleaf
      cases hleaf
    | node hn' _ hchild h =>
      rw [hread] at hn'
      cases hn'
      obtain ⟨c, hc, rfl⟩ := hint.exists_child hchild
      exact mem_flatMap.mpr ⟨c, hc, ih (hkids c hc) h⟩

/-- An entry is below one child only. -/
theorem Child.eq_of_mem (hs : Sorted (Child.all kids)) {c c' : Child} (hc : c ∈ kids)
    (hc' : c' ∈ kids) (he : e ∈ c.entries) (he' : e ∈ c'.entries) : c = c' := by
  have hdisjoint := (pairwise_flatMap.mp hs).2
  obtain ⟨pre, post, rfl⟩ := append_of_mem hc
  obtain ⟨-, hpost, hpre⟩ := pairwise_append.mp hdisjoint
  rcases mem_append.mp hc' with hmem | hmem
  · exact absurd (hpre c' hmem c mem_cons_self e he' e he) (lt_irrefl _)
  · rcases mem_cons.mp hmem with rfl | hmem
    · rfl
    · exact absurd (rel_of_pairwise_cons hpost hmem e he e he') (lt_irrefl _)

/-- Chains to all entries of a tree are the whole tree. -/
theorem Subtree.of_leads (hq : p.Partial q) (hsub : Subtree p level cid es)
    (h : ∀ e ∈ es, Leads q cid e) : Subtree q level cid es := by
  induction level generalizing cid es with
  | zero =>
    obtain ⟨n, hn, hleaf⟩ := hsub
    obtain ⟨e, he⟩ := exists_mem_of_ne_nil es hleaf.nonempty
    exact ⟨n, (h e he).stored hq hn, hleaf⟩
  | succ level ih =>
    have hnonempty := hsub.nonempty
    obtain ⟨n, kids, hn, hint, rfl, hkids⟩ := hsub
    obtain ⟨e, he⟩ := exists_mem_of_ne_nil _ hnonempty
    have hread := (h e he).stored hq hn
    refine ⟨n, kids, hread, hint, rfl, fun c hc => ih (hkids c hc) fun e he => ?_⟩
    -- the chain to an entry below `c` goes through `c`
    have hstore := (Manager.loadArc_eq_ok.mp hread).1
    cases h e (mem_flatMap.mpr ⟨c, hc, he⟩) with
    | leaf hn' hleaf _ =>
      rw [hstore] at hn'
      cases hn'
      rw [hint.leaf] at hleaf
      cases hleaf
    | node hn' _ hchild hlead =>
      rw [hstore] at hn'
      cases hn'
      obtain ⟨c', hc', rfl⟩ := hint.exists_child hchild
      rwa [Child.eq_of_mem hint.sorted hc hc' he (hlead.mem hq (hkids c' hc'))]

/-- A cursor that starts at the first entry and comes to all entries has read the whole tree. -/
theorem Holds.of_visited (hq : p.Partial q) {tree : Tree} (h : Holds p tree.root es)
    (hc : Cursor.atItem q fuel tree [] = .ok c) {steps : Nat}
    (hvisited : c.visited q fuel steps = es) : Holds q tree.root es := by
  unfold Cursor.atItem at hc
  cases hroot : tree.root with
  | none => rwa [hroot] at h
  | some root =>
    rw [hroot] at h hc
    obtain ⟨level, hsub⟩ := h
    refine ⟨level, hsub.of_leads hq fun e he => ?_⟩
    exact Cursor.Linked.visited steps (fun _ => FramesFrom.nil.descendAt hc) e (hvisited ▸ he)

end Reads

/-! ### Cursors over trees that can be read -/

section Readable

variable {q qb qo : Manager} {fuel height : Nat} {c : Cursor} {bs os : List Entry} {es : List Entry}

/-- The cursor is at the first of the entries, or past the last. -/
def Cursor.Before (q : Manager) (height : Nat) (c : Cursor) : List Entry → Prop
  | [] => c.isValid = false
  | e :: later => c.At q height e later

theorem Cursor.Before.advance {e : Entry} (h : c.Before q height (e :: es))
    (hfuel : height < fuel) : (c.advance q fuel).Before q height es := by
  unfold Cursor.advance
  rcases Cursor.At.advanceBefore h hfuel none with ⟨c', hc', hinvalid, hend⟩ |
    ⟨c', e', later, hc', hat, rfl⟩
  · have hnil : es = [] := by
      cases es with
      | nil => rfl
      | cons e es => cases hend
    rw [hc', hnil]
    exact hinvalid
  · rw [hc']
    exact hat

theorem Cursor.Before.entryAt (h : c.Before q height es) :
    DiffCursor.entryAt c = es.head? ∧ c.isValid = !es.isEmpty := by
  cases es with
  | nil =>
    have hinvalid : c.isValid = false := h
    simp [DiffCursor.entryAt, Cursor.getKey, hinvalid]
  | cons e es =>
    have hat : c.At q height e es := h
    simp [DiffCursor.entryAt, hat.getKey, hat.getValue, hat.isValid]

theorem Cursor.Before.visited (h : c.Before q height es) (hfuel : height < fuel) {steps : Nat}
    (hsteps : es.length ≤ steps) : c.visited q fuel (steps + 1) = es := by
  induction es generalizing c steps with
  | nil => rw [Cursor.visited, h.entryAt.1]; rfl
  | cons e es ih =>
    obtain ⟨steps, rfl⟩ : ∃ n, steps = n + 1 := ⟨steps - 1, by simp at hsteps; omega⟩
    rw [Cursor.visited, h.entryAt.1]
    exact congrArg _ (ih (h.advance hfuel) (by simpa using hsteps))

/-- A new cursor is at the first entry. -/
theorem Cursor.before_atItem {tree : Tree} (h : Holds q tree.root es) :
    ∃ height, ∀ fuel, height < fuel →
      ∃ c, Cursor.atItem q fuel tree [] = .ok c ∧ c.Before q height es := by
  unfold Cursor.atItem
  cases hroot : tree.root with
  | none =>
    rw [hroot] at h
    obtain rfl : es = [] := h
    exact ⟨0, fun fuel _ =>
      ⟨_, rfl, by simp [Before, Cursor.isValid, Cursor.invalid, Node.isEmpty]⟩⟩
  | some cid =>
    rw [hroot] at h
    obtain ⟨level, hsub⟩ := h
    refine ⟨level, fun fuel hfuel => ?_⟩
    obtain ⟨leaf, les, frames, before, after, -, -, hcursor, hleaf, hpath, hes, hb, ha, hlen⟩ :=
      Path.seekStart hsub hfuel [] false
    refine ⟨_, hcursor, ?_⟩
    have hbefore : before = [] := by
      cases before with
      | nil => rfl
      | cons e before => exact absurd (hb e mem_cons_self) (not_lt_nil _)
    have hindex : Manager.childIndex leaf [] = 0 := by
      have hle := Manager.childIndex_le leaf []
      have hnone : leaf.keys.takeWhile (fun k => decide (k < [])) = [] := by
        cases leaf.keys with
        | nil => rfl
        | cons k ks => exact takeWhile_cons_of_neg (by simp)
      rw [partitionPoint, hnone] at hle
      exact Nat.le_zero.mp hle
    have hpos := length_pos_of_ne_nil hleaf.nonempty
    have hfirst : es = les[0] :: (les.drop 1 ++ after) := by
      rw [hes, hbefore, nil_append, ← cons_append, ← drop_eq_getElem_cons hpos, drop_zero]
    rw [hindex, hfirst]
    exact .mk (c := ⟨0, leaf, frames⟩) hleaf (hbefore ▸ hpath) hpos hlen

/-- The iterator has the differences of `bs` and `os` to yield. -/
structure DiffCursor.Ahead (qb qo : Manager) (heightBase heightOther : Nat) (it : DiffCursor)
    (bs os : List Entry) : Prop where
  base : it.cursorBase.Before qb heightBase bs
  other : it.cursorOther.Before qo heightOther os

namespace DiffCursor

variable {it : DiffCursor} {heightBase heightOther : Nat} {b o : Entry} {steps : Nat}

theorem Ahead.advanceBase (h : it.Ahead qb qo heightBase heightOther (b :: bs) os)
    (hfuel : heightBase < fuel) :
    (it.advanceBase qb fuel).Ahead qb qo heightBase heightOther bs os :=
  ⟨h.base.advance hfuel, h.other⟩

theorem Ahead.advanceOther (h : it.Ahead qb qo heightBase heightOther bs (o :: os))
    (hfuel : heightOther < fuel) :
    (it.advanceOther qo fuel).Ahead qb qo heightBase heightOther bs os :=
  ⟨h.base, h.other.advance hfuel⟩

/-- What `next` yields on an iterator with `size` base entries, and what is left then. -/
def Yields (qb qo : Manager) (heightBase heightOther size : Nat)
    (r : Result (Option Diff × DiffCursor)) (ds : List Diff) : Prop :=
  (∃ it', r = .ok (none, it') ∧ ds = []) ∨
    ∃ d it' bs' os', r = .ok (some d, it') ∧ it'.done = false ∧ bs'.length ≤ size ∧
      it'.Ahead qb qo heightBase heightOther bs' os' ∧ ds = d :: diff bs' os'

theorem Yields.mono {size size' : Nat} {r : Result (Option Diff × DiffCursor)} {ds : List Diff}
    (h : Yields qb qo heightBase heightOther size r ds) (hle : size ≤ size') :
    Yields qb qo heightBase heightOther size' r ds := by
  refine h.imp_right ?_
  rintro ⟨d, it', bs', os', hr, hdone, hsize, hahead, hds⟩
  exact ⟨d, it', bs', os', hr, hdone, hsize.trans hle, hahead, hds⟩

/-- One call of `next`; the induction is on the pairs of equal entries that it skips. -/
theorem Ahead.nextLoop (h : it.Ahead qb qo heightBase heightOther bs os) (hdone : it.done = false)
    (hbase : heightBase < fuel) (hother : heightOther < fuel) (hsteps : bs.length < steps) :
    Yields qb qo heightBase heightOther bs.length (nextLoop qb qo fuel steps it)
      (diff bs os) := by
  induction steps generalizing it bs os with
  | zero => omega
  | succ steps ih =>
    obtain ⟨hentryBase, hvalidBase⟩ := h.base.entryAt
    obtain ⟨hentryOther, hvalidOther⟩ := h.other.entryAt
    rw [DiffCursor.nextLoop, hvalidBase, hvalidOther, hentryBase, hentryOther]
    cases bs with
    | nil =>
      cases os with
      | nil => exact .inl ⟨_, rfl, rfl⟩
      | cons o os =>
        exact .inr ⟨_, _, [], os, rfl, hdone, le_rfl, h.advanceOther hother, rfl⟩
    | cons b bs =>
      have hshorter : bs.length ≤ (b :: bs).length := Nat.le_succ _
      cases os with
      | nil =>
        refine .inr ⟨_, _, bs, [], rfl, hdone, hshorter, h.advanceBase hbase, ?_⟩
        rw [diff_nil_right, diff_nil_right]
        rfl
      | cons o os =>
        obtain ⟨baseKey, baseVal⟩ := b
        obtain ⟨otherKey, otherVal⟩ := o
        rw [diff_cons_cons]
        simp only [isEmpty_cons, Bool.not_false, List.head?_cons]
        split
        · exact .inr ⟨_, _, bs, _, rfl, hdone, hshorter, h.advanceBase hbase, rfl⟩
        · split
          · exact .inr ⟨_, _, _, os, rfl, hdone, le_rfl, h.advanceOther hother, rfl⟩
          · have hahead := (h.advanceBase hbase).advanceOther hother
            by_cases hval : baseVal = otherVal
            · rw [if_neg (not_not.mpr hval), if_pos hval]
              exact (ih hahead hdone (by simpa using hsteps)).mono hshorter
            · rw [if_pos hval, if_neg hval]
              exact .inr ⟨_, _, bs, os, rfl, hdone, hshorter, hahead, rfl⟩

/-- The iterator yields the differences. -/
theorem Ahead.collect (h : it.Ahead qb qo heightBase heightOther bs os) (hdone : it.done = false)
    (hbase : heightBase < fuel) (hother : heightOther < fuel) (hlen : bs.length < fuel)
    (hsteps : (diff bs os).length < steps) :
    it.collect qb qo fuel steps = .ok (diff bs os) := by
  induction steps generalizing it bs os with
  | zero => omega
  | succ steps ih =>
    rw [DiffCursor.collect, next, if_neg (by simp [hdone])]
    rcases h.nextLoop hdone hbase hother hlen with
      ⟨it', hnext, hds⟩ | ⟨d, it', bs', os', hnext, hdone', hsize, hahead, hds⟩
    · rw [hnext, hds]
      rfl
    · rw [hds, length_cons] at hsteps
      rw [hnext, hds, ok_bind]
      dsimp only
      rw [ih hahead hdone' (by omega) (by omega)]
      rfl

end DiffCursor

end Readable

/-! ### Faithful iterators -/

section Faithful

variable {p qb qo : Manager} {base other : Tree} {bs os : List Entry}

namespace DiffCursor

variable {it : DiffCursor} {fuel : Nat}

/-- What a new iterator is. -/
theorem new_cases (h : DiffCursor.new qb qo fuel base other = .ok it) :
    (base.root = other.root ∧ it.done = true) ∨
      (base.root ≠ other.root ∧ it.done = false ∧
        Cursor.atItem qb fuel base [] = .ok it.cursorBase ∧
          Cursor.atItem qo fuel other [] = .ok it.cursorOther) := by
  unfold DiffCursor.new at h
  split at h
  · next hroot =>
    cases h
    exact .inl ⟨hroot, rfl⟩
  · next hroot =>
    obtain ⟨cursorBase, hbase, h⟩ := of_bind h
    obtain ⟨cursorOther, hother, h⟩ := of_bind h
    cases h
    exact .inr ⟨hroot, rfl, hbase, hother⟩

/-- Trees with one root are not read. -/
theorem faithful_of_done (hdone : it.done = true) (hfuel : 0 < fuel) :
    it.Faithful qb qo fuel bs os := by
  obtain _ | fuel := fuel
  · omega
  refine ⟨⟨[], ?_, forall_mem_nil _⟩, fun h => absurd (hdone.symm.trans h) nofun⟩
  rw [collect, next, if_pos hdone]
  rfl

/-- Where all nodes of both trees can be read. -/
theorem faithful_of_holds (hb : Holds qb base.root bs) (ho : Holds qo other.root os) :
    Enough fun fuel => ∀ it, DiffCursor.new qb qo fuel base other = .ok it →
      it.Faithful qb qo fuel bs os := by
  obtain ⟨heightBase, hbase⟩ := Cursor.before_atItem hb
  obtain ⟨heightOther, hother⟩ := Cursor.before_atItem ho
  refine ⟨heightBase + heightOther + bs.length + os.length + (diff bs os).length + 1,
    fun fuel hfuel it hnew => ?_⟩
  rcases new_cases hnew with ⟨-, hdone⟩ | ⟨-, hdone, hcb, hco⟩
  · exact faithful_of_done hdone (by omega)
  · obtain ⟨cb, hcb', hbeforeBase⟩ := hbase fuel (by omega)
    obtain ⟨co, hco', hbeforeOther⟩ := hother fuel (by omega)
    rw [hcb] at hcb'
    rw [hco] at hco'
    cases hcb'
    cases hco'
    have hahead : it.Ahead qb qo heightBase heightOther bs os := ⟨hbeforeBase, hbeforeOther⟩
    refine ⟨⟨_, hahead.collect hdone (by omega) (by omega) (by omega) (by omega), fun d hd => ?_⟩,
      fun _ => ?_⟩
    · exact (mem_diff hb.sorted ho.sorted d).mp hd
    · obtain ⟨steps, rfl⟩ : ∃ n, fuel = n + 1 := ⟨fuel - 1, by omega⟩
      exact ⟨hbeforeBase.visited (by omega) (by omega), hbeforeOther.visited (by omega) (by omega)⟩

end DiffCursor

/-- The iterator is faithful exactly if the trees have one root, which it compares first, or all
nodes of both can be read. -/
theorem diffCursor_faithful_iff (hqb : p.Partial qb) (hqo : p.Partial qo)
    (hb : Holds p base.root bs) (ho : Holds p other.root os) :
    Enough fun fuel => ∀ it, DiffCursor.new qb qo fuel base other = .ok it →
      (it.Faithful qb qo fuel bs os ↔
        base.root = other.root ∨ (Holds qb base.root bs ∧ Holds qo other.root os)) := by
  by_cases hread : Holds qb base.root bs ∧ Holds qo other.root os
  · refine (DiffCursor.faithful_of_holds hread.1 hread.2).mono fun fuel hfaithful it hnew => ?_
    exact ⟨fun _ => .inr hread, fun _ => hfaithful it hnew⟩
  · refine ⟨1, fun fuel hfuel it hnew => ?_⟩
    rcases DiffCursor.new_cases hnew with ⟨hroot, hdone⟩ | ⟨hroot, hdone, hcb, hco⟩
    · exact ⟨fun _ => .inl hroot, fun _ => DiffCursor.faithful_of_done hdone (by omega)⟩
    · refine ⟨fun hfaithful => ?_, fun h => absurd (h.resolve_left hroot) hread⟩
      obtain ⟨hbase, hother⟩ := hfaithful.ends hdone
      exact .inr ⟨Holds.of_visited hqb hb hcb hbase, Holds.of_visited hqo ho hco hother⟩

end Faithful

/-- The store, but every read of the parent of `b` and `c` fails. -/
def Reversed.failing : Manager :=
  { manager with store := fun cid => if cid = bcCid then none else manager.store cid }

section

open Reversed

/-- The differences of two trees in a store without failures. -/
theorem diffCursor_faithful_uabc :
    Enough fun fuel => ∀ it, DiffCursor.new manager manager fuel uabc abc = .ok it →
      it.Faithful manager manager fuel [u, a, b, c] [a, b, c] := by
  have hself : manager.Partial manager := ⟨rfl, rfl, fun _ _ h => h⟩
  refine (diffCursor_faithful_iff hself hself holds_uabc holds_abc).mono fun fuel h it hnew => ?_
  exact (h it hnew).mpr (.inr ⟨holds_uabc, holds_abc⟩)

/-- From `{u, a, b, c}` to `{a, b, c}`, with a failing read in the first tree, the iterator reports
`b` and `c` as added. -/
theorem diffCursor_false_additions :
    Holds manager uabc.root [u, a, b, c] ∧ Holds manager abc.root [a, b, c] ∧
      manager.Partial failing ∧
      (do
        let it ← DiffCursor.new failing failing 10 uabc abc
        it.collect failing failing 10 10) =
          .ok [.removed u.1 u.2, .added b.1 b.2, .added c.1 c.2] ∧
      ¬ IsDiff (lookup [u, a, b, c]) (lookup [a, b, c]) (.added b.1 b.2) := by
  refine ⟨holds_uabc, holds_abc, ⟨rfl, rfl, fun cid n h => ?_⟩,
    by decide +kernel, fun h => absurd h.1 (by decide +kernel)⟩
  unfold failing at h
  dsimp only at h
  split at h
  · cases h
  · exact h

end

end Prolly

import Prolly.Scan.Path

/-!
# Prolly.Scan.Iter

`range`, `range_after` and the cursor iterator yield the entries of their range in
order. An iterator is described by what it still has to yield: `RangeIter.Left` and
`CursorIterator.Left` say so for a state between two calls of `next`, and a call
takes the first entry off.

A bounded iterator stops at the first child, or at the first entry, that starts past
the end. The entries to come are in order, so all of them are past it
(`beforeEnd_past`).
-/

namespace Prolly

open SortedAssoc (Sorted firstKey)
open List

/-! ### Collecting -/

variable {es : List Entry}

/-- An iterator whose calls take the entries off one by one collects them. -/
theorem collectItems_eq {S : Type} {next : S → Result (Option Entry × S)}
    {Left : S → List Entry → Prop} (hnil : ∀ s, Left s [] → ∃ s', next s = .ok (none, s'))
    (hcons : ∀ s e es, Left s (e :: es) → ∃ s', next s = .ok (some e, s') ∧ Left s' es) {s : S}
    (h : Left s es) {fuel : Nat} (hfuel : es.length < fuel) :
    collectItems next fuel s = .ok es := by
  induction es generalizing s fuel with
  | nil =>
    obtain _ | fuel := fuel
    · omega
    obtain ⟨s', hnext⟩ := hnil s h
    simp [collectItems, hnext]
  | cons e es ih =>
    obtain _ | fuel := fuel
    · omega
    obtain ⟨s', hnext, hleft⟩ := hcons s e es h
    have hrest := ih hleft (by simpa using hfuel)
    simp [collectItems, hnext, hrest]

/-! ### The end of a range -/

section End

variable {stop : Option Bytes} {es later : List Entry} {n : Node}

def beforeEnd (stop : Option Bytes) (es : List Entry) : List Entry :=
  es.takeWhile fun e => !endsBeforeOrAt stop e.1

/-- Where the first entry is past the end there is nothing before it. -/
theorem beforeEnd_past (hne : es ≠ []) (h : endsBeforeOrAt stop (firstKey es) = true) :
    beforeEnd stop (es ++ later) = [] := by
  obtain ⟨e, es, rfl⟩ := exists_cons_of_ne_nil hne
  exact takeWhile_cons_of_neg (by simpa using h)

/-- The cached end of a leaf is where its entries pass the end of the range. -/
theorem Node.IsLeaf.endIndex (h : n.IsLeaf es) (stop : Option Bytes) :
    n.endIndex stop = (es.takeWhile fun e => !endsBeforeOrAt stop e.1).length := by
  rw [← h.exclusiveEnd stop]
  cases stop with
  | none => rfl
  | some stop => exact (n.partitionPoint_lt stop).symm

/-- One entry of a leaf: it is past the end, or it comes next. -/
theorem Node.IsLeaf.beforeEnd_drop (h : n.IsLeaf es) {i : Nat} (hi : i < es.length)
    (stop : Option Bytes) (later : List Entry) :
    beforeEnd stop (es.drop i ++ later) =
      if n.endIndex stop ≤ i then [] else es[i] :: beforeEnd stop (es.drop (i + 1) ++ later) := by
  have hmono : es.Pairwise fun a b => (!endsBeforeOrAt stop b.1) = true →
      (!endsBeforeOrAt stop a.1) = true := by
    refine h.sorted.imp fun {a b} hab hb => ?_
    rw [Bool.not_eq_true'] at hb ⊢
    exact Bool.eq_false_iff.mpr fun ha => Bool.eq_false_iff.mp hb (endsBeforeOrAt_mono hab.le ha)
  rw [h.endIndex, drop_eq_getElem_cons hi, cons_append, beforeEnd]
  split_ifs with hle
  · -- the index is past the prefix before the end
    have hmem : es[i] ∈ es.drop (es.takeWhile fun e => !endsBeforeOrAt stop e.1).length := by
      rw [mem_drop_iff_getElem]
      exact ⟨i - (es.takeWhile fun e => !endsBeforeOrAt stop e.1).length, by omega, by
        congr 1; omega⟩
    rw [SortedAssoc.drop_takeWhile_eq_filter hmono] at hmem
    exact takeWhile_cons_of_neg (by simpa using (mem_filter.mp hmem).2)
  · have hlt : i < (es.takeWhile fun e => !endsBeforeOrAt stop e.1).length := by omega
    have hstart := takeWhile_prefix (fun e : Entry => !endsBeforeOrAt stop e.1) (l := es)
    have hmem := getElem_mem hlt
    rw [hstart.getElem hlt] at hmem
    rw [takeWhile_cons_of_pos (by simpa using mem_takeWhile_imp hmem)]
    rfl

end End

/-! ### Range iterators -/

namespace RangeIter

variable {p : Manager} {height : Nat} {it : RangeIter} {leaf n child : Node} {i fuel level : Nat}
  {frames : List PathFrame} {les before after es : List Entry} {pre post : List Child} {c : Child}

/-- The iterator stands in a leaf, with the end of the leaf cached, and still has to
yield `es`. -/
inductive InLeaf (p : Manager) (height : Nat) (it : RangeIter) : List Entry → Prop
  | mk {leaf : Node} {i : Nat} {frames : List PathFrame} {les before after : List Entry}
      (started : it.started = true) (stack : it.stack = ⟨leaf, i⟩ :: frames)
      (leafEnd : it.leafEnd = some (leaf.endIndex it.stop))
      (location : ∀ l ∈ it.lastLocation, l.node = leaf) (isLeaf : leaf.IsLeaf les)
      (path : Path p 0 frames before after) (length : frames.length = height) :
      InLeaf p height it (beforeEnd it.stop (les.drop i ++ after))

/-- The outcome of a call of `next` on an iterator that has `es` to yield. -/
def Yields (p : Manager) (height : Nat) (r : Result (Option Entry × RangeIter)) :
    List Entry → Prop
  | [] => ∃ it, r = .ok (none, it)
  | e :: es => ∃ it, r = .ok (some e, it) ∧ InLeaf p height it es

theorem positionAtStart_of_started (h : it.started = true) : it.positionAtStart = it := by
  simp [positionAtStart, h]

/-- In a leaf with entries left, one step finds the next entry or the end. -/
theorem nextLoop_leaf (hstarted : it.started = true) (hstack : it.stack = ⟨leaf, i⟩ :: frames)
    (hend : it.leafEnd = none ∨
      it.leafEnd = some (leaf.endIndex it.stop) ∧ ∀ l ∈ it.lastLocation, l.node = leaf)
    (hleaf : leaf.IsLeaf les) (hi : i < les.length) (hpath : Path p 0 frames before after)
    (hlen : frames.length = height) :
    Yields p height (nextLoop p (fuel + 1) it) (beforeEnd it.stop (les.drop i ++ after)) := by
  have hcached : it.leafEnd.getD (leaf.endIndex it.stop) = leaf.endIndex it.stop := by
    rcases hend with hend | ⟨hend, -⟩ <;> simp [hend]
  have hmore : ¬ leaf.len ≤ i := by rw [hleaf.len]; omega
  rw [nextLoop, readyStep, positionAtStart_of_started hstarted, readyLoop, hstack]
  simp only [hmore, if_false, hleaf.leaf, if_true, hcached]
  rw [hleaf.beforeEnd_drop hi]
  split_ifs with hpast
  · exact ⟨_, rfl⟩
  · have hentry : leaf.entryOwned i = .ok les[i] := by
      simp [Node.entryOwned, hleaf.entries_eq, hi]
    have hlocation : it.locationAt leaf i = ⟨leaf, i⟩ := by
      rcases hend with hend | ⟨hend, hnode⟩
      · cases hlast : it.lastLocation <;> simp [locationAt, hend, hlast]
      · cases hlast : it.lastLocation with
        | none => simp [locationAt, hlast]
        | some last => simp [locationAt, hlast, hend, hnode last hlast]
    simp only [hlocation, ok_bind, afterStep, hentry]
    refine ⟨_, rfl, ?_⟩
    exact .mk hstarted rfl rfl (by simp) hleaf hpath hlen

/-- Prefetching loads children of the node only. -/
theorem mem_prefetchChildren {kids : List Child} {stop : Option Bytes}
    (hint : n.IsInternal level kids) {count index : Nat} {cid : Cid}
    (h : cid ∈ prefetchChildren n stop count index) : ∃ c ∈ kids, c.cid = cid := by
  induction count generalizing index with
  | zero => simp [prefetchChildren] at h
  | succ count ih =>
    rw [prefetchChildren] at h
    split at h
    · next cid' _ hchild =>
        rcases mem_cons.mp h with rfl | h
        · rw [Node.childCid, hint.vals, List.getElem?_map] at hchild
          cases hget : kids[index]? with
          | none => simp [hget] at hchild
          | some c =>
            refine ⟨c, mem_of_getElem? hget, ?_⟩
            simpa [hget] using hchild
        · exact ih h
    · simp at h

/-- Descending loads the child, alone or in a batch with its siblings. -/
theorem loadChildForDescent_eq (hint : n.IsInternal (level + 1) (pre ++ c :: post))
    (hkids : ∀ d ∈ pre ++ c :: post, Subtree p level d.cid d.entries)
    (hload : p.loadArc c.cid = .ok child) : it.loadChildForDescent p n pre.length = .ok child := by
  rw [loadChildForDescent, hint.childCid, ok_bind]
  split
  · exact hload
  · have hsiblings : ∀ cid ∈ prefetchChildren n it.stop
        (min n.len (pre.length + childPrefetchParallelism) - (pre.length + 1)) (pre.length + 1),
        ∃ m, p.loadArc cid = .ok m := by
      intro cid hcid
      obtain ⟨d, hd, rfl⟩ := mem_prefetchChildren hint hcid
      obtain ⟨m, hm, -⟩ := subtree_iff.mp (hkids d hd)
      exact ⟨m, hm⟩
    obtain ⟨nodes, hnodes⟩ := exists_mapM hsiblings
    simp [mapM_cons, hload, hnodes]

/-- At an internal node a step asks for the child, unless it is past the end. -/
theorem readyStep_internal (hstarted : it.started = true)
    (hstack : it.stack = ⟨n, pre.length⟩ :: frames)
    (hint : n.IsInternal (level + 1) (pre ++ c :: post)) :
    it.readyStep (fuel + 1) =
      .ok (if endsBeforeOrAt it.stop (firstKey c.entries) then .finished else .needsChild, it) := by
  have hmore : ¬ n.len ≤ pre.length := by simp [hint.len]
  rw [readyStep, positionAtStart_of_started hstarted, readyLoop, hstack]
  simp only [hmore, if_false, hint.leaf, hint.childStarts, ok_bind, Bool.false_eq_true]
  split_ifs <;> rfl

/-- Behind the last entry or child of a node a step goes on at the next sibling. -/
theorem readyStep_exhausted (hstarted : it.started = true) (hstack : it.stack = ⟨n, i⟩ :: frames)
    (hend : n.len ≤ i) :
    it.readyStep (fuel + 1) = (do
      let (more, stack) ← advanceToNextSibling it.stop frames
      let it' := { it with stack, leafEnd := none }
      if more then readyLoop fuel it' else .ok (.finished, it')) := by
  rw [readyStep, positionAtStart_of_started hstarted, readyLoop, hstack]
  simp only [hend, if_true]

/-- One iteration of the loop there ends the walk or goes down one level. -/
theorem nextLoop_descend (hstarted : it.started = true)
    (hstack : it.stack = ⟨n, pre.length⟩ :: frames)
    (hint : n.IsInternal (level + 1) (pre ++ c :: post))
    (hkids : ∀ d ∈ pre ++ c :: post, Subtree p level d.cid d.entries)
    (hload : p.loadArc c.cid = .ok child) :
    nextLoop p (fuel + 1) it =
      if endsBeforeOrAt it.stop (firstKey c.entries) then .ok (none, it)
      else nextLoop p fuel { it with stack := ⟨child, 0⟩ :: it.stack, leafEnd := none } := by
  have hchild : it.loadChildForDescent p n pre.length = .ok child :=
    loadChildForDescent_eq hint hkids hload
  rw [nextLoop, readyStep_internal hstarted hstack hint]
  split_ifs with hpast
  · rfl
  · simp only [ok_bind, afterStep, descendNextChild, hstack, hchild, pure_eq]

/-- At an internal node the loop goes down to the first leaf of the child it is at, unless
that child is past the end. The induction is on the height of the node. -/
theorem nextLoop_internal (hstarted : it.started = true)
    (hstack : it.stack = ⟨n, pre.length⟩ :: frames)
    (hint : n.IsInternal (level + 1) (pre ++ c :: post))
    (hkids : ∀ d ∈ pre ++ c :: post, Subtree p level d.cid d.entries)
    (hpath : Path p (level + 1) frames before after) (hlen : level + 1 + frames.length = height)
    (hfuel : level + 2 ≤ fuel) :
    Yields p height (nextLoop p fuel it)
      (beforeEnd it.stop (c.entries ++ (Child.all post ++ after))) := by
  obtain _ | fuel := fuel
  · omega
  induction level generalizing it n pre post c frames before after fuel with
  | zero =>
    have hc := hkids c (by simp)
    obtain ⟨child, hload, hleaf⟩ := hc
    rw [nextLoop_descend hstarted hstack hint hkids hload]
    split_ifs with hpast
    · rw [beforeEnd_past hleaf.nonempty hpast]
      exact ⟨_, rfl⟩
    · obtain _ | fuel := fuel
      · omega
      have hpos := length_pos_of_ne_nil hleaf.nonempty
      rw [← drop_zero (l := c.entries)]
      exact nextLoop_leaf hstarted (by rw [hstack]) (.inl rfl) hleaf hpos
        (.cons hint hkids hpath) (by simp; omega)
  | succ level ih =>
    obtain ⟨child, kids, hload, hchild, hes, hsub⟩ := hkids c (by simp)
    rw [nextLoop_descend hstarted hstack hint hkids hload]
    split_ifs with hpast
    · rw [beforeEnd_past (hkids c (by simp)).nonempty hpast]
      exact ⟨_, rfl⟩
    · obtain _ | fuel := fuel
      · omega
      obtain ⟨d, rest, rfl⟩ := exists_cons_of_ne_nil hchild.nonempty
      have hchild : child.IsInternal (level + 1) ([] ++ d :: rest) := hchild
      let it' : RangeIter := { it with stack := ⟨child, 0⟩ :: it.stack, leafEnd := none }
      have hstack' : it'.stack = ⟨child, 0⟩ :: ⟨n, pre.length⟩ :: frames := by
        simp only [it', hstack]
      have hstarted' : it'.started = true := hstarted
      rw [hes, Child.all_cons, append_assoc]
      exact ih hstarted' hstack' hchild hsub (.cons hint hkids hpath) (by simp; omega) fuel
        (by omega)

/-- An exhausted leaf: the loop moves up to the next sibling and goes on there. -/
theorem nextLoop_exhausted (hstarted : it.started = true) (hstack : it.stack = ⟨leaf, i⟩ :: frames)
    (hend : leaf.len ≤ i) (hpath : Path p level frames before after)
    (hlen : level + frames.length = height) (hfuel : height + 3 ≤ fuel) :
    Yields p height (nextLoop p fuel it) (beforeEnd it.stop after) := by
  obtain ⟨fuel, rfl⟩ : ∃ f, fuel = f + 2 := ⟨fuel - 2, by omega⟩
  rw [nextLoop, readyStep_exhausted hstarted hstack hend]
  clear hstack
  induction hpath with
  | nil => exact ⟨_, rfl⟩
  | @cons level n pre post c frames before after hint hkids hrest ih =>
    rw [length_cons, ← Nat.add_assoc, Nat.add_right_comm] at hlen
    cases post with
    | nil =>
      have hlast : ¬ pre.length + 1 < n.len := by simp [hint.len]
      rw [Child.all_nil, nil_append, advanceToNextSibling, if_neg hlast]
      exact ih hlen
    | cons d post =>
      have hint' : n.IsInternal (level + 1) ((pre ++ [c]) ++ d :: post) := by simpa using hint
      have hkids' : ∀ x ∈ (pre ++ [c]) ++ d :: post, Subtree p level x.cid x.entries := by
        simpa using hkids
      have hstarts := hint'.childStarts it.stop
      have hmore : pre.length + 1 < n.len := by simp [hint.len]
      rw [length_append, length_singleton] at hstarts
      rw [advanceToNextSibling, if_pos hmore, hstarts, Child.all_cons, append_assoc]
      simp only [ok_bind, pure_eq]
      by_cases hpast : endsBeforeOrAt it.stop (firstKey d.entries) = true
      · rw [beforeEnd_past (hkids d (by simp)).nonempty hpast]
        simp only [hpast, Bool.not_true, Bool.false_eq_true, if_false]
        exact ⟨_, rfl⟩
      · -- the loop goes on at the sibling, as if the walk had been there
        let it' : RangeIter := { it with stack := ⟨n, pre.length + 1⟩ :: frames, leafEnd := none }
        have hstarted' : it'.started = true := hstarted
        have hstack' : it'.stack = ⟨n, (pre ++ [c]).length⟩ :: frames := by simp [it']
        have hstep : ∀ f, it'.readyStep (f + 1) = .ok
            (if endsBeforeOrAt it'.stop (firstKey d.entries) then .finished else .needsChild,
              it') :=
          fun f => readyStep_internal hstarted' hstack' hint'
        have hloop : readyLoop (fuel + 1) it' = it'.readyStep (fuel + 2) := by
          rw [hstep, ← hstep fuel, readyStep, positionAtStart_of_started hstarted']
        have hyields : Yields p height (nextLoop p (fuel + 2) it')
            (beforeEnd it.stop (d.entries ++ (Child.all post ++ after))) :=
          nextLoop_internal hstarted' hstack' hint' hkids' hrest (by omega) (by omega)
        rw [nextLoop, ← hloop] at hyields
        simpa only [hpast, Bool.not_false, if_true] using hyields

theorem InLeaf.nextLoop (h : InLeaf p height it es) (hfuel : height + 3 ≤ fuel) :
    Yields p height (nextLoop p fuel it) es := by
  obtain @⟨leaf, i, frames, les, before, after, hstarted, hstack, hend, hlocation, hleaf, hpath,
    hlen⟩ := h
  obtain _ | fuel := fuel
  · omega
  by_cases hi : i < les.length
  · exact nextLoop_leaf hstarted hstack (.inr ⟨hend, hlocation⟩) hleaf hi hpath hlen
  · rw [drop_eq_nil_of_le (by omega), nil_append]
    exact nextLoop_exhausted hstarted hstack (by rw [hleaf.len]; omega) hpath (by omega) hfuel

/-- A call of `next` in a leaf, on the short path or through the loop. -/
theorem InLeaf.next (h : InLeaf p height it es) (hfuel : height + 3 ≤ fuel) :
    Yields p height (next p fuel it) es := by
  have hloop := h.nextLoop hfuel
  obtain @⟨leaf, i, frames, les, before, after, hstarted, hstack, hend, hlocation, hleaf, hpath,
    hlen⟩ := h
  rw [RangeIter.next, hstack, hend]
  dsimp only
  split_ifs with hfast
  · simp only [Bool.and_eq_true, decide_eq_true_eq] at hfast
    have hi : i < les.length := by
      have hle := (takeWhile_sublist (fun e : Entry => !endsBeforeOrAt it.stop e.1)
        (l := les)).length_le
      rw [← hleaf.endIndex] at hle
      omega
    have hentry : leaf.entryOwned i = .ok les[i] := by
      simp [Node.entryOwned, hleaf.entries_eq, hi]
    rw [hleaf.beforeEnd_drop hi, if_neg (by omega), hentry]
    refine ⟨_, rfl, ?_⟩
    refine .mk hstarted rfl rfl (fun l hl => ?_) hleaf hpath hlen
    obtain ⟨last, hlast, rfl⟩ := Option.map_eq_some_iff.mp hl
    exact hlocation last hlast
  · exact hloop

/-- What the iterator still has to yield, between two calls. -/
inductive Left (p : Manager) (height : Nat) (it : RangeIter) : List Entry → Prop
  | inLeaf {es : List Entry} (h : InLeaf p height it es) : Left p height it es
  | start {es : List Entry} (leafEnd : it.leafEnd = none)
      (h : InLeaf p height it.positionAtStart es) : Left p height it es
  | empty (leafEnd : it.leafEnd = none) (stack : it.stack = []) : Left p height it []

theorem Left.next (h : Left p height it es) (hfuel : height + 3 ≤ fuel) :
    Yields p height (next p fuel it) es := by
  cases h with
  | inLeaf h => exact h.next hfuel
  | start hend h =>
    have hnext : RangeIter.next p fuel it = RangeIter.nextLoop p fuel it := by
      cases hstack : it.stack <;> simp [RangeIter.next, hend, hstack]
    have hstarted : it.positionAtStart.started = true := by
      obtain ⟨hstarted⟩ := h
      exact hstarted
    have hloop := h.nextLoop hfuel
    obtain _ | fuel := fuel
    · omega
    rw [RangeIter.nextLoop, readyStep, positionAtStart_of_started hstarted] at hloop
    rw [hnext, RangeIter.nextLoop, readyStep]
    exact hloop
  | empty hend hstack =>
    obtain _ | fuel := fuel
    · omega
    have hposition : it.positionAtStart.stack = [] := by
      rw [positionAtStart]
      split
      · exact hstack
      · simp [hstack]
    refine ⟨it.positionAtStart, ?_⟩
    simp [RangeIter.next, hstack, RangeIter.nextLoop, readyStep, readyLoop, hposition, afterStep]

/-- All items, from any state between two calls. -/
theorem Left.collect (h : Left p height it es) (hfuel : height + es.length + 3 ≤ fuel) :
    collectItems (RangeIter.next p fuel) fuel it = .ok es := by
  refine collectItems_eq (fun s hs => ?_) (fun s e es hs => ?_) h (by omega)
  · exact hs.next (by omega)
  · obtain ⟨s', hnext, hleft⟩ := hs.next (by omega : height + 3 ≤ fuel)
    exact ⟨s', hnext, .inLeaf hleft⟩

/-- The index the first leaf is entered at is where the range starts. -/
theorem startIndex_eq (hkeys : leaf.keys.Pairwise (· < ·)) (it : RangeIter) :
    it.startIndex leaf =
      partitionPoint (fun k => !startsAt it.startKey it.skipStartKey k) leaf.keys := by
  cases hskip : it.skipStartKey with
  | false =>
    simp only [startsAt, Bool.not_not, Bool.false_eq_true, if_false]
    rw [Node.partitionPoint_lt, startIndex, hskip]
    cases leaf.search it.startKey <;> rfl
  | true =>
    simp only [startsAt, Bool.not_not, if_true]
    rw [Node.partitionPoint_le hkeys, startIndex, hskip]
    cases leaf.search it.startKey <;> rfl

/-- A fresh iterator over the path to the start of its range has the entries of the range
to yield. -/
theorem left_of_path (hfresh : it.started = false) (hend : it.leafEnd = none)
    (hlocation : it.lastLocation = none) (hstack : it.stack = ⟨leaf, i⟩ :: frames)
    (hleaf : leaf.IsLeaf les) (hpath : Path p 0 frames before after)
    (hes : es = before ++ les ++ after) (hs : Sorted es) (hb : ∀ e ∈ before, e.1 < it.startKey)
    (ha : ∀ e ∈ after, it.startKey < e.1) :
    Left p frames.length it (entriesIn it.startKey it.skipStartKey it.stop es) := by
  subst hes
  obtain ⟨htake, hdrop⟩ := hleaf.startPart it.startKey it.skipStartKey
  have hkeys : leaf.keys.Pairwise (· < ·) :=
    hleaf.keys ▸ SortedAssoc.sorted_iff_keys.mp hleaf.sorted
  rw [entriesIn_of_leaf hs hb ha htake hdrop, ← startIndex_eq hkeys]
  refine .start hend ?_
  have hposition : it.positionAtStart = { it with
      started := true
      stack := ⟨leaf, it.startIndex leaf⟩ :: frames
      leafEnd := some (leaf.endIndex it.stop) } := by
    simp [positionAtStart, hfresh, hstack, hleaf.leaf]
  rw [hposition]
  exact .mk rfl rfl rfl (by simp [hlocation]) hleaf hpath rfl

end RangeIter

section Range

variable {p : Manager} {tree : Tree} {es : List Entry}

/-- The items of an iterator over the path to the start of its range. -/
theorem Manager.collect_range (h : Holds p tree.root es) {start : Bytes} {stop : Option Bytes}
    {skip : Bool} {iter : List PathFrame → RangeIter}
    (hiter : ∀ stack, iter stack = ⟨stack, stop, false, start, skip, none, none⟩) :
    Enough fun fuel => ((if endsBeforeOrAt stop start then .ok (iter [])
        else do return iter (← p.findReadPathArcs fuel tree start)) >>=
      collectItems (RangeIter.next p fuel) fuel) = .ok (entriesIn start skip stop es) := by
  have hempty : RangeIter.Left p 0 (iter []) [] := by
    rw [hiter]
    exact .empty rfl rfl
  by_cases hends : endsBeforeOrAt stop start = true
  · refine ⟨3, fun fuel hfuel => ?_⟩
    simp only [if_pos hends, entriesIn_eq_nil skip hends, ok_bind]
    exact hempty.collect hfuel
  simp only [if_neg hends, Manager.findReadPathArcs]
  cases hroot : tree.root with
  | none =>
    rw [hroot] at h
    obtain rfl : es = [] := h
    exact ⟨3, fun fuel hfuel => hempty.collect hfuel⟩
  | some cid =>
    rw [hroot] at h
    obtain ⟨level, hsub⟩ := h
    refine ⟨level + es.length + 3, fun fuel hfuel => ?_⟩
    obtain ⟨leaf, les, frames, before, after, hread, -, -, hleaf, hpath, hes, hb, ha, hlen⟩ :=
      Path.seekStart hsub (by omega : level < fuel) start skip
    simp only [hread, ok_bind, pure_eq, hiter]
    refine RangeIter.Left.collect
      (RangeIter.left_of_path rfl rfl rfl rfl hleaf hpath hes hsub.sorted hb ha) ?_
    have hle : (entriesIn start skip stop es).length ≤ es.length := length_filter_le _ _
    omega

/-- `range` yields the entries with `start ≤ key < end`. -/
theorem Manager.range_eq (h : Holds p tree.root es) (start : Bytes) (stop : Option Bytes) :
    Enough fun fuel => (p.range fuel tree start stop >>=
      collectItems (RangeIter.next p fuel) fuel) = .ok (entriesIn start false stop es) :=
  Manager.collect_range h fun _ => rfl

/-- `range_after` yields the entries with `after < key < end`. -/
theorem Manager.rangeAfter_eq (h : Holds p tree.root es) (after : Bytes) (stop : Option Bytes) :
    Enough fun fuel => (p.rangeAfter fuel tree after stop >>=
      collectItems (RangeIter.next p fuel) fuel) = .ok (entriesIn after true stop es) :=
  Manager.collect_range h fun _ => rfl

end Range

/-! ### Cursors -/

namespace Cursor

variable {p : Manager} {height fuel : Nat} {c : Cursor} {e : Entry} {later : List Entry}

/-- The cursor is at the entry `e`, and `later` comes after it. -/
inductive At (p : Manager) (height : Nat) (c : Cursor) : Entry → List Entry → Prop
  | mk {les before after : List Entry} (isLeaf : c.node.IsLeaf les)
      (path : Path p 0 c.parents before after) (index : c.index < les.length)
      (length : c.parents.length = height) :
      At p height c les[c.index] (les.drop (c.index + 1) ++ after)

theorem At.isValid (h : At p height c e later) : c.isValid = true := by
  obtain ⟨hleaf, -, hindex, -⟩ := h
  simp [Cursor.isValid, hleaf.isEmpty, hleaf.len, hindex]

theorem At.getKey (h : At p height c e later) : c.getKey = some e.1 := by
  have hvalid := h.isValid
  obtain ⟨hleaf, -, hindex, -⟩ := h
  simp [Cursor.getKey, hvalid, hleaf.keys, hindex]

theorem At.getValue (h : At p height c e later) : c.getValue = some e.2 := by
  have hvalid := h.isValid
  obtain ⟨hleaf, -, hindex, -⟩ := h
  simp [Cursor.getValue, hvalid, hleaf.leaf, hleaf.vals, hindex]

/-- Up to the next child before the end, and down to its first leaf. -/
theorem advanceViaParentBefore_spec {frames : List PathFrame} {before after : List Entry}
    {level : Nat} (h : Path p level frames before after) (hfuel : level + frames.length < fuel)
    (stop : Option Bytes) :
    (advanceViaParentBefore p fuel stop frames = none ∧ beforeEnd stop after = []) ∨
    ∃ (c : Cursor) (e : Entry) (later : List Entry),
      advanceViaParentBefore p fuel stop frames = some c ∧
      At p (level + frames.length) c e later ∧ after = e :: later := by
  induction h with
  | nil => exact .inl ⟨rfl, rfl⟩
  | @cons level n pre post c frames before after hint hkids hrest ih =>
    rw [length_cons, ← Nat.add_assoc, Nat.add_right_comm] at hfuel ⊢
    cases post with
    | nil =>
      have hlast : ¬ pre.length + 1 < n.len := by simp [hint.len]
      rw [Child.all_nil, nil_append, advanceViaParentBefore, if_neg hlast]
      exact ih hfuel
    | cons d post =>
      have hint' : n.IsInternal (level + 1) ((pre ++ [c]) ++ d :: post) := by simpa using hint
      have hpath := Path.cons hint' (by simpa using hkids) hrest
      have hstarts := hint'.childStarts stop
      have hcid := hint'.childCid
      rw [length_append, length_singleton] at hpath hstarts hcid
      have hmore : pre.length + 1 < n.len := by simp [hint.len]
      rw [advanceViaParentBefore, if_pos hmore, childIsPast, hstarts, Child.all_cons, append_assoc]
      by_cases hpast : endsBeforeOrAt stop (firstKey d.entries) = true
      · exact .inl ⟨by simp [hpast], beforeEnd_past (hkids d (by simp)).nonempty hpast⟩
      · obtain ⟨leaf, les, frames', after', -, hdown, hleaf, hpath', hes, hlen⟩ :=
          hpath.leftmost (hkids d (by simp)) (by omega : level < fuel)
        have hpos := length_pos_of_ne_nil hleaf.nonempty
        refine .inr ⟨⟨0, leaf, frames'⟩, les[0], les.drop 1 ++ after', ?_, ?_, ?_⟩
        · simp [hpast, hcid, hdown]
        · refine .mk hleaf hpath' hpos ?_
          rw [hlen, length_cons]
          omega
        · rw [hes, ← cons_append, ← drop_eq_getElem_cons hpos, drop_zero]

/-- One move: to the next entry, or nothing is left before the end. -/
theorem At.advanceBefore (h : At p height c e later) (hfuel : height < fuel)
    (stop : Option Bytes) :
    (∃ c', c.advanceBefore p fuel stop = (false, c') ∧ c'.isValid = false ∧
      beforeEnd stop later = []) ∨
    ∃ c' e' later', c.advanceBefore p fuel stop = (true, c') ∧ At p height c' e' later' ∧
      later = e' :: later' := by
  have hvalid := h.isValid
  obtain @⟨les, before, after, hleaf, hpath, hindex, rfl⟩ := h
  simp only [Cursor.advanceBefore, hvalid, Bool.not_true, Bool.false_eq_true, if_false]
  by_cases hmore : c.index + 1 < les.length
  · have hcut := drop_eq_getElem_cons hmore
    have hkey : c.node.childStartsAtOrAfterEnd stop (c.index + 1) =
        .ok (endsBeforeOrAt stop les[c.index + 1].1) := by
      cases stop with
      | none => rfl
      | some stop => simp [Node.childStartsAtOrAfterEnd, hleaf.keys, endsBeforeOrAt, hmore]
    rw [if_pos (by rwa [hleaf.len]), childIsPast, hkey]
    dsimp only
    split_ifs with hpast
    · refine .inl ⟨_, rfl, by simp [Cursor.isValid], ?_⟩
      rw [hcut]
      exact takeWhile_cons_of_neg (by simpa using hpast)
    · refine .inr ⟨{ c with index := c.index + 1 }, les[c.index + 1],
        les.drop (c.index + 1 + 1) ++ after, rfl, ?_, ?_⟩
      · exact .mk (c := { c with index := c.index + 1 }) hleaf hpath hmore rfl
      · rw [hcut, cons_append]
  · rw [if_neg (by rwa [hleaf.len]), drop_eq_nil_of_le (by omega), nil_append]
    have hup := advanceViaParentBefore_spec hpath (by rwa [Nat.zero_add]) stop
    rw [Nat.zero_add] at hup
    rcases hup with ⟨hnone, hend⟩ |
      ⟨c', e', later', hsome, hat, hafter⟩
    · exact .inl ⟨⟨c.node.len, c.node, []⟩, by simp only [hnone], by simp [Cursor.isValid], hend⟩
    · exact .inr ⟨c', e', later', by simp only [hsome], hat, hafter⟩

end Cursor

namespace CursorIterator

variable {p : Manager} {height fuel : Nat} {it : CursorIterator} {start : Bytes} {c : Cursor}
  {es : List Entry}

/-- Where the first call of `next` can move to from an entry. -/
def Skips (p : Manager) (height : Nat) (it : CursorIterator) (start : Bytes)
    (r : Result (Bool × Cursor)) (es : List Entry) : Prop :=
  (∃ c, r = .ok (false, c) ∧ c.isValid = false ∧ entriesIn start false it.endKey es = []) ∨
  ∃ c e later, r = .ok (true, c) ∧ Cursor.At p height c e later ∧
    entriesIn start false it.endKey es = beforeEnd it.endKey (e :: later)

/-- The first call moves to the first entry at or past the start. The induction is on the
entries after the cursor. -/
theorem skipToStart_spec {e : Entry} {later : List Entry} (hstart : it.startKey = some start)
    (h : Cursor.At p height c e later) (hs : Sorted (e :: later))
    (hfuel : height + later.length + 1 < fuel) :
    Skips p height it start (it.skipToStart p fuel c) (e :: later) := by
  induction fuel generalizing c e later with
  | zero => omega
  | succ fuel ih =>
    have hat : it.isAtOrAfterStart c = decide (start ≤ e.1) := by
      simp [isAtOrAfterStart, hstart, h.getKey]
    rw [skipToStart, h.isValid, hat]
    by_cases hle : start ≤ e.1
    · refine .inr ⟨c, e, later, by simp [hle], h, ?_⟩
      have hall : ∀ a ∈ e :: later, startsAt start false a.1 = true := by
        intro a ha
        have hea : e.1 ≤ a.1 := by
          rcases mem_cons.mp ha with rfl | ha
          · exact le_rfl
          · exact (rel_of_pairwise_cons hs ha).le
        simpa [startsAt] using hle.trans hea
      exact entriesIn_of_split hs (forall_mem_nil _) hall
    · have hskip : entriesIn start false it.endKey (e :: later) =
          entriesIn start false it.endKey later := by
        simp [entriesIn, startsAt, not_le.mp hle]
      simp only [hle, decide_false, Bool.not_false, Bool.and_self, if_true, Skips, hskip]
      rcases h.advanceBefore (by omega : height < fuel) it.endKey with
        ⟨c', hmove, hinvalid, hend⟩ | ⟨c', e', later', hmove, hat', rfl⟩
      · refine .inl ⟨c', by rw [hmove], hinvalid, filter_eq_nil_iff.mpr fun a ha hc => ?_⟩
        rw [beforeEnd, takeWhile_before_end hs.of_cons] at hend
        rw [Bool.and_eq_true] at hc
        exact filter_eq_nil_iff.mp hend a ha hc.2
      · rw [hmove]
        exact ih hat' hs.of_cons (by simp at hfuel; omega)

/-- What the iterator still has to yield, between two calls. The first call may walk over
entries that it does not yield, and needs the fuel to do so. -/
inductive Left (p : Manager) (height fuel : Nat) (it : CursorIterator) : List Entry → Prop
  | start {start : Bytes} {e : Entry} {later : List Entry} (fresh : it.started = false)
      (startKey : it.startKey = some start) (h : Cursor.At p height it.cursor e later)
      (sorted : Sorted (e :: later)) (room : height + later.length + 1 < fuel) :
      Left p height fuel it (entriesIn start false it.endKey (e :: later))
  | inside {e : Entry} {later : List Entry} (started : it.started = true)
      (h : Cursor.At p height it.cursor e later) : Left p height fuel it (beforeEnd it.endKey later)
  | done (h : it.cursor.isValid = false) : Left p height fuel it []

/-- The outcome of a call of `next` on an iterator that has `es` to yield. -/
def Yields (p : Manager) (height fuel : Nat) (r : Result (Option Entry × CursorIterator)) :
    List Entry → Prop
  | [] => ∃ it, r = .ok (none, it)
  | e :: es => ∃ it, r = .ok (some e, it) ∧ Left p height fuel it es

/-- What `next` yields once it has moved. -/
theorem next_of_move {found : Bool} (hvalid : it.cursor.isValid = true)
    (hmove : it.move p fuel = .ok (found, c))
    (h : (found = false ∧ es = []) ∨ ∃ e later, found = true ∧ Cursor.At p height c e later ∧
      es = beforeEnd it.endKey (e :: later)) : Yields p height fuel (it.next p fuel) es := by
  rw [next, hvalid, hmove]
  simp only [Bool.not_true, Bool.false_eq_true, if_false, ok_bind, pure_eq]
  rcases h with ⟨rfl, rfl⟩ | ⟨e, later, rfl, hat, rfl⟩
  · exact ⟨_, rfl⟩
  · have hbefore : it.isBeforeEnd c = !endsBeforeOrAt it.endKey e.1 := by
      rw [Bool.eq_iff_iff, isBeforeEnd, hat.getKey]
      cases it.endKey <;> simp [endsBeforeOrAt]
    by_cases hpast : endsBeforeOrAt it.endKey e.1 = true
    · rw [beforeEnd, takeWhile_cons_of_neg (by simpa using hpast)]
      exact ⟨_, by simp [item, hbefore, hpast]; rfl⟩
    · rw [beforeEnd, takeWhile_cons_of_pos (by simpa using hpast)]
      refine ⟨{ it with cursor := c, started := true }, ?_, .inside rfl hat⟩
      simp [item, hbefore, hpast, hat.isValid, hat.getKey, hat.getValue]

theorem Left.next (h : Left p height fuel it es) (hfuel : height < fuel) :
    Yields p height fuel (it.next p fuel) es := by
  cases h with
  | start hfresh hstart h hs hroom =>
    have hmove : it.move p fuel = it.skipToStart p fuel it.cursor := by simp [move, hfresh]
    rcases skipToStart_spec hstart h hs hroom with
      ⟨c', hskip, hinvalid, hend⟩ | ⟨c', e', later', hskip, hat', hes⟩
    · exact next_of_move h.isValid (hmove.trans hskip) (.inl ⟨rfl, hend⟩)
    · exact next_of_move h.isValid (hmove.trans hskip) (.inr ⟨e', later', rfl, hat', hes⟩)
  | inside hstarted h =>
    have hmove : it.move p fuel = .ok (it.cursor.advanceBefore p fuel it.endKey) := by
      simp [move, hstarted]
    rcases h.advanceBefore hfuel it.endKey with
      ⟨c', hadvance, hinvalid, hend⟩ | ⟨c', e', later', hadvance, hat', rfl⟩
    · exact next_of_move h.isValid (hmove.trans (by rw [hadvance])) (.inl ⟨rfl, hend⟩)
    · exact next_of_move h.isValid (hmove.trans (by rw [hadvance]))
        (.inr ⟨e', later', rfl, hat', rfl⟩)
  | done h => exact ⟨it, by simp [CursorIterator.next, h]⟩

/-- All items, from any state between two calls. -/
theorem Left.collect (h : Left p height fuel it es) (hfuel : height + es.length < fuel) :
    collectItems (CursorIterator.next p fuel) fuel it = .ok es := by
  refine collectItems_eq (fun s hs => ?_) (fun s e es hs => ?_) h (by omega)
  · exact hs.next (by omega)
  · exact hs.next (by omega)

/-- A fresh iterator at the last entry of a leaf that is not past the start. -/
theorem left_of_path {leaf : Node} {frames : List PathFrame} {stop : Option Bytes}
    {les before after : List Entry} (hleaf : leaf.IsLeaf les) (hpath : Path p 0 frames before after)
    (hes : es = before ++ les ++ after) (hs : Sorted es) (hb : ∀ e ∈ before, e.1 < start)
    (hfuel : frames.length + es.length + 1 < fuel) :
    Left p frames.length fuel
      (.withBounds ⟨Manager.childIndex leaf start, leaf, frames⟩ (some start) stop)
      (entriesIn start false stop es) := by
  have hkeys : leaf.keys.Pairwise (· < ·) :=
    hleaf.keys ▸ SortedAssoc.sorted_iff_keys.mp hleaf.sorted
  have hindex : Manager.childIndex leaf start < les.length := by
    have hlt := Manager.childIndex_lt hkeys (by simp [hleaf.keys, hleaf.nonempty]) start
    simpa [hleaf.keys] using hlt
  have htake : ∀ e ∈ les.take (Manager.childIndex leaf start),
      startsAt start false e.1 = false := by
    intro e he
    refine (hleaf.startPart start false).1 e (take_subset_take_left les ?_ he)
    simpa [startsAt] using Manager.childIndex_le leaf start
  have hcut : es = (before ++ les.take (Manager.childIndex leaf start)) ++
      (les[Manager.childIndex leaf start] ::
        (les.drop (Manager.childIndex leaf start + 1) ++ after)) := by
    rw [hes, ← cons_append, ← drop_eq_getElem_cons hindex, append_assoc before,
      append_assoc before, ← append_assoc (les.take _), take_append_drop]
  have hbefore : ∀ e ∈ before ++ les.take (Manager.childIndex leaf start),
      startsAt start false e.1 = false := by
    intro e he
    rcases mem_append.mp he with he | he
    · exact startsAt_of_lt false (hb e he)
    · exact htake e he
  have hlen := congrArg List.length hcut
  simp only [length_append, length_cons] at hlen
  rw [hcut, entriesIn_append hbefore]
  rw [hcut] at hs
  refine .start rfl rfl (.mk hleaf hpath hindex rfl) (pairwise_append.mp hs).2.1 ?_
  simp only [length_append]
  omega

end CursorIterator

/-- `range_cursor` yields the entries with `start ≤ key < end`. -/
theorem Manager.rangeCursor_eq {p : Manager} {tree : Tree} (h : Holds p tree.root es)
    (start : Bytes) (stop : Option Bytes) :
    Enough fun fuel => (p.rangeCursor fuel tree start stop >>=
      collectItems (CursorIterator.next p fuel) fuel) = .ok (entriesIn start false stop es) := by
  have hinvalid :
    ∀ fuel, CursorIterator.Left p 0 fuel (.withBounds .invalid (some start) stop) [] :=
    fun fuel => .done (by simp [CursorIterator.withBounds, Cursor.isValid, Cursor.invalid,
      Node.isEmpty])
  unfold Manager.rangeCursor Cursor.atItem
  by_cases hends : endsBeforeOrAt stop start = true
  · refine ⟨1, fun fuel hfuel => ?_⟩
    simp only [if_pos hends, entriesIn_eq_nil false hends, ok_bind]
    exact (hinvalid fuel).collect hfuel
  simp only [if_neg hends]
  cases hroot : tree.root with
  | none =>
    rw [hroot] at h
    obtain rfl : es = [] := h
    exact ⟨1, fun fuel hfuel => (hinvalid fuel).collect hfuel⟩
  | some cid =>
    rw [hroot] at h
    obtain ⟨level, hsub⟩ := h
    refine ⟨level + es.length + 2, fun fuel hfuel => ?_⟩
    obtain ⟨leaf, les, frames, before, after, -, -, hcursor, hleaf, hpath, hes, hb, ha, hlen⟩ :=
      Path.seekStart hsub (by omega : level < fuel) start false
    simp only [hcursor, ok_bind, pure_eq]
    refine CursorIterator.Left.collect
      (CursorIterator.left_of_path hleaf hpath hes hsub.sorted hb (by omega)) ?_
    have hle : (entriesIn start false stop es).length ≤ es.length := length_filter_le _ _
    omega

/-! ### Ordered reads -/

section

open Reversed

end

end Prolly

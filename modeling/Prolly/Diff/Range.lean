import Prolly.CascadeOrder
import Prolly.Diff.Traversal

/-!
# Prolly.Diff.Range

The range diff is the part of the diff inside the range. Every frame now stands
for the differences of its subtrees *that lie in the range*; a child whose span
does not overlap the range stands for nothing and is skipped. The alignment is
that of `Prolly.Diff.Traversal`, read through `KeyRange.select`.

When the branch lineage knows the mutations between the two trees, the range diff
is read off them (`lineageDiff`), with the old values looked up in the base tree.
-/

namespace Prolly

open SortedAssoc
open List hiding lookup
open Child (spans)

/-! ### The part of a list inside a range -/

namespace KeyRange

variable (r : KeyRange)

def contains (key : Bytes) : Bool := keyInRange r.start r.stop key

def restrict (es : List Entry) : List Entry := es.filter fun e => r.contains e.1

def select (ds : List Diff) : List Diff := ds.filter fun d => r.contains d.key

@[simp] theorem restrict_append (xs ys : List Entry) :
    r.restrict (xs ++ ys) = r.restrict xs ++ r.restrict ys := filter_append ..

@[simp] theorem select_append (xs ys : List Diff) :
    r.select (xs ++ ys) = r.select xs ++ r.select ys := filter_append ..

theorem select_map (kind : DiffFrameKind) (es : List Entry) :
    r.select (es.map kind.diff) = (r.restrict es).map kind.diff := by
  rw [select, restrict, filter_map]
  cases kind <;> rfl

theorem select_diff {bs os : List Entry} (hb : Sorted bs) (ho : Sorted os) :
    r.select (diff bs os) = diff (r.restrict bs) (r.restrict os) :=
  (diff_filter hb ho r.contains).symm

variable {r} {es : List Entry}

theorem contains_iff {key : Bytes} :
    r.contains key = true ↔ r.start ≤ key ∧ ∀ stop ∈ r.stop, key < stop := by
  cases h : r.stop <;> simp [contains, keyInRange, h]

theorem restrict_eq_nil (h : ∀ e ∈ es, r.contains e.1 = false) : r.restrict es = [] :=
  filter_eq_nil_iff.mpr fun e he => by simp [h e he]

/-- What ends at or before the start of the range is outside. -/
theorem restrict_of_ends {stop : Option Bytes} (h : endsBeforeOrAt stop r.start = true)
    (hb : Bounded stop es) : r.restrict es = [] := by
  refine restrict_eq_nil fun e he => Bool.eq_false_iff.mpr fun hc => ?_
  cases stop with
  | none => simp [endsBeforeOrAt] at h
  | some stop =>
    have hle : stop ≤ r.start := by simpa [endsBeforeOrAt] using h
    exact ((hb stop rfl e he).trans_le hle).not_ge (contains_iff.mp hc).1

/-- What starts at or after the end of the range is outside. -/
theorem restrict_of_starts {start : Bytes} (h : endsBeforeOrAt r.stop start = true)
    (hs : ∀ e ∈ es, start ≤ e.1) : r.restrict es = [] := by
  refine restrict_eq_nil fun e he => Bool.eq_false_iff.mpr fun hc => ?_
  have hc := (contains_iff.mp hc).2
  cases hstop : r.stop with
  | none => simp [hstop, endsBeforeOrAt] at h
  | some stop =>
    have hle : stop ≤ start := by simpa [hstop, endsBeforeOrAt] using h
    exact (hc stop hstop).not_ge (hle.trans (hs e he))

theorem restrict_of_not_overlaps {s : ChildSpan} (h : ¬ s.overlaps r.start r.stop = true)
    (hb : Bounded s.stop es) (hs : ∀ e ∈ es, s.start ≤ e.1) : r.restrict es = [] := by
  rw [ChildSpan.overlaps, Bool.and_eq_true, not_and_or] at h
  rcases h with h | h
  · exact restrict_of_ends (by simpa using h) hb
  · exact restrict_of_starts (by simpa using h) hs

end KeyRange

open KeyRange

/-- The leaf loops visit the entries in the range. -/
theorem Node.IsLeaf.entriesInRange {n : Node} {es : List Entry} (h : n.IsLeaf es) (r : KeyRange) :
    n.entriesInRange r = r.restrict es := by
  have hlen : lowerBound n.keys r.start = (es.takeWhile fun e => e.1 < r.start).length := by
    rw [lowerBound, h.keys, takeWhile_map, length_map]
    rfl
  have hdrop : es.drop (es.takeWhile fun e => e.1 < r.start).length =
      es.filter fun e => !decide (e.1 < r.start) :=
    drop_takeWhile_eq_filter (h.sorted.imp fun hab hb => by
      simpa using hab.trans (by simpa using hb))
  have htake : ((es.filter fun e => !decide (e.1 < r.start)).Pairwise fun a b =>
      r.contains b.1 = true → r.contains a.1 = true) := by
    refine (h.sorted.filter _).imp_of_mem fun {a b} ha hb hab hc => ?_
    have ha : ¬ a.1 < r.start := by simpa using (mem_filter.mp ha).2
    obtain ⟨-, hstop⟩ := KeyRange.contains_iff.mp hc
    exact KeyRange.contains_iff.mpr ⟨not_lt.mp ha, fun stop hs => hab.trans (hstop stop hs)⟩
  rw [Node.entriesInRange, h.entries_eq, hlen, hdrop]
  refine (takeWhile_eq_filter htake).trans ?_
  rw [filter_filter, KeyRange.restrict]
  refine filter_congr fun e _ => ?_
  by_cases hc : r.contains e.1 = true
  · simp [hc, (KeyRange.contains_iff.mp hc).1]
  · simp [hc]

/-! ### Children that overlap the range -/

section Children

variable {p : Manager} {l : Nat} {spanEnd : Option Bytes} {r : KeyRange} {kids : List Child}
  {n : Node} {level : Nat}

/-- A span as a parent describes the child `c`. -/
structure SpanOf (p : Manager) (l : Nat) (s : ChildSpan) (c : Child) : Prop where
  child : s.child = c.cid.bytes
  subtree : Subtree p l c.cid c.entries
  start : s.start = firstKey c.entries
  bounded : Bounded s.stop c.entries

theorem SpanOf.start_le {s : ChildSpan} {c : Child} (h : SpanOf p l s c) :
    ∀ e ∈ c.entries, s.start ≤ e.1 := fun _ he => h.start ▸ h.subtree.sorted.firstKey_le he

theorem Kids.spanOf (h : Kids p l spanEnd kids) :
    Forall₂ (SpanOf p l) (spans kids spanEnd) kids := by
  induction kids with
  | nil => exact .nil
  | cons c kids ih =>
    exact .cons ⟨rfl, h.subtree c mem_cons_self, rfl, h.head_bounded⟩ (ih h.tail)

/-- The children a loop over spans keeps: each with its span end, together holding
everything in the range. -/
structure Selected (p : Manager) (l : Nat) (r : KeyRange) (es : List Entry)
    (sel : List (Option Bytes × Child)) : Prop where
  subtree : ∀ c ∈ sel, Subtree p l c.2.cid c.2.entries
  bounded : ∀ c ∈ sel, Bounded c.1 c.2.entries
  restrict : r.restrict es = sel.flatMap fun c => r.restrict c.2.entries

/-- The loop keeps every child it must: a child it skips, or stops at, holds nothing in
the range. -/
theorem overlapping_spec {spans : List ChildSpan} (h : Forall₂ (SpanOf p l) spans kids)
    (hs : Sorted (Child.all kids)) :
    ∃ sel, overlapping r spans = .ok (sel.map fun c => (c.1, c.2.cid)) ∧
      Selected p l r (Child.all kids) sel := by
  induction h with
  | nil => exact ⟨[], rfl, by simp, by simp, rfl⟩
  | cons hspan hrest ih =>
    rename_i s c spans kids
    obtain ⟨-, hs', hlt⟩ := sorted_append.mp hs
    obtain ⟨sel, hsel, hspec⟩ := ih hs'
    rw [overlapping]
    split_ifs with hover hends
    · refine ⟨(s.stop, c) :: sel, ?_, ?_, ?_, ?_⟩
      · simp [hspan.child, hsel]
      · exact forall_mem_cons.mpr ⟨hspan.subtree, hspec.subtree⟩
      · exact forall_mem_cons.mpr ⟨hspan.bounded, hspec.bounded⟩
      · rw [Child.all_cons, restrict_append, hspec.restrict, flatMap_cons]
    · -- everything from here on starts past the range
      refine ⟨[], rfl, by simp, by simp, ?_⟩
      rw [restrict_of_starts hends, flatMap_nil]
      intro e he
      rcases mem_append.mp he with he | he
      · exact hspan.start_le e he
      · obtain ⟨e', he', hkey⟩ := exists_mem_firstKey hspan.subtree.nonempty
        exact hspan.start.trans_le (hkey ▸ (hlt e' he' e he).le)
    · refine ⟨sel, hsel, hspec.subtree, hspec.bounded, ?_⟩
      rw [Child.all_cons, restrict_append,
        restrict_of_not_overlaps hover hspan.bounded hspan.start_le, nil_append, hspec.restrict]

theorem Child.spans_drop (kids : List Child) (spanEnd : Option Bytes) (i : Nat) :
    (spans kids spanEnd).drop i = spans (kids.drop i) spanEnd := by
  induction kids generalizing i with
  | nil => simp [spans]
  | cons c kids ih =>
    cases i with
    | zero => rfl
    | succ i => exact ih i

theorem Kids.drop (h : Kids p l spanEnd kids) (i : Nat) : Kids p l spanEnd (kids.drop i) := by
  induction kids generalizing i with
  | nil => simpa using h
  | cons c kids ih =>
    cases i with
    | zero => exact h
    | succ i => exact ih h.tail i

/-- `lower_bound` over the keys of an internal node. -/
theorem Node.IsInternal.lowerBound (h : n.IsInternal level kids) (key : Bytes) :
    Prolly.lowerBound n.keys key = (kids.takeWhile fun c => firstKey c.entries < key).length := by
  rw [Prolly.lowerBound, h.keys, takeWhile_map, length_map]
  rfl

/-- The children before the first one that may overlap hold nothing in the range: they
end where it starts, and it starts before the range does. -/
theorem restrict_take_firstOverlapping (hint : n.IsInternal level kids)
    (h : Kids p l spanEnd kids) :
    r.restrict (Child.all (kids.take (n.firstOverlapping r))) = [] := by
  by_cases h0 : n.firstOverlapping r = 0
  · simp [h0, KeyRange.restrict]
  -- the child at the cut starts before the range
  have hlt : n.firstOverlapping r <
      (kids.takeWhile fun c => firstKey c.entries < r.start).length := by
    rw [← hint.lowerBound]
    simp only [Node.firstOverlapping] at h0 ⊢
    omega
  have hstart := takeWhile_prefix (fun c : Child => decide (firstKey c.entries < r.start))
    (l := kids)
  have hlen : n.firstOverlapping r < kids.length := hlt.trans_le hstart.length_le
  have hcut : kids[n.firstOverlapping r] =
      (kids.takeWhile fun c => firstKey c.entries < r.start)[n.firstOverlapping r] :=
    (hstart.getElem hlt).symm
  have hstart : firstKey kids[n.firstOverlapping r].entries < r.start := by
    rw [hcut]
    simpa using mem_takeWhile_imp (getElem_mem hlt)
  have hsorted := h.sorted
  rw [← take_append_drop (n.firstOverlapping r) kids, Child.all_append] at hsorted
  obtain ⟨e, he, hkey⟩ := exists_mem_firstKey
    (h.subtree _ (getElem_mem hlen)).nonempty
  refine restrict_eq_nil fun x hx => Bool.eq_false_iff.mpr fun hc => ?_
  have hxe : x.1 < e.1 := (sorted_append.mp hsorted).2.2 x hx e (by
    rw [← getElem_cons_drop hlen, Child.all_cons]
    exact mem_append_left _ he)
  exact (hxe.trans (hkey ▸ hstart)).not_ge (KeyRange.contains_iff.mp hc).1

theorem restrict_drop_firstOverlapping (hint : n.IsInternal level kids)
    (h : Kids p l spanEnd kids) :
    r.restrict (Child.all (kids.drop (n.firstOverlapping r))) = r.restrict (Child.all kids) := by
  conv_rhs => rw [← take_append_drop (n.firstOverlapping r) kids, Child.all_append,
    restrict_append, restrict_take_firstOverlapping hint h, nil_append]

/-- The children after the last one that may overlap start past the range. -/
theorem restrict_drop_lastOverlapping (hint : n.IsInternal level kids) (h : Kids p l spanEnd kids) :
    r.restrict (Child.all (kids.drop (n.lastOverlapping r))) = [] := by
  have hlen : n.len = kids.length := by simp [Node.len, hint.keys]
  cases hstop : r.stop with
  | none =>
    have hle : kids.length ≤ n.lastOverlapping r := by
      simp only [Node.lastOverlapping, hstop, hlen]
      omega
    simp [drop_eq_nil_of_le hle, KeyRange.restrict]
  | some stop =>
    by_cases hge : kids.length ≤ n.lastOverlapping r
    · simp [drop_eq_nil_of_le hge, KeyRange.restrict]
    have hle : Prolly.lowerBound n.keys stop ≤ n.lastOverlapping r := by
      simp only [Node.lastOverlapping, hstop, hlen] at hge ⊢
      omega
    have hends : endsBeforeOrAt r.stop stop = true := by simp [hstop, endsBeforeOrAt]
    refine restrict_of_starts hends fun e he => ?_
    obtain ⟨c, hc, he⟩ := mem_flatMap.mp he
    have hmem : c ∈ kids.drop (kids.takeWhile fun c => firstKey c.entries < stop).length := by
      rw [← hint.lowerBound]
      exact (drop_sublist_drop_left kids hle).subset hc
    have hpair : kids.Pairwise fun a b => firstKey a.entries < firstKey b.entries :=
      Child.firstKeys_sorted h.sorted fun c hc => (h.subtree c hc).nonempty
    rw [drop_takeWhile_eq_filter (hpair.imp fun hab hb => by
      simpa using hab.trans (by simpa using hb))] at hmem
    have hkey : stop ≤ firstKey c.entries := by simpa using (mem_filter.mp hmem).2
    exact hkey.trans ((h.subtree c (drop_subset _ _ hc)).sorted.firstKey_le he)

/-- The children in the window of indexes hold everything in the range. -/
theorem Kids.window (hint : n.IsInternal level kids) (h : Kids p l spanEnd kids) :
    Forall₂ (SpanOf p l)
        (((n.childSpans spanEnd).take (n.lastOverlapping r)).drop (n.firstOverlapping r))
        ((kids.take (n.lastOverlapping r)).drop (n.firstOverlapping r)) ∧
      Sorted (Child.all ((kids.take (n.lastOverlapping r)).drop (n.firstOverlapping r))) ∧
      r.restrict (Child.all ((kids.take (n.lastOverlapping r)).drop (n.firstOverlapping r))) =
        r.restrict (Child.all kids) := by
  have hlen : n.len = kids.length := by simp [Node.len, hint.keys]
  have hfirst : n.firstOverlapping r ≤ n.lastOverlapping r ∧
      n.firstOverlapping r ≤ kids.length := by
    have hlb : Prolly.lowerBound n.keys r.start ≤ kids.length := by
      rw [hint.lowerBound]
      exact (takeWhile_sublist _).length_le
    simp only [Node.lastOverlapping, Node.firstOverlapping, hlen]
    omega
  have hsplit : kids.drop (n.firstOverlapping r) =
      (kids.take (n.lastOverlapping r)).drop (n.firstOverlapping r) ++
        kids.drop (n.lastOverlapping r) := by
    rw [← drop_append_of_le_length (by rw [length_take]; omega), take_append_drop]
  have hsorted := (h.drop (n.firstOverlapping r)).sorted
  rw [hsplit, Child.all_append] at hsorted
  refine ⟨?_, (sorted_append.mp hsorted).1, ?_⟩
  · rw [hint.childSpans]
    exact forall₂_drop _ (forall₂_take _ h.spanOf)
  · rw [← restrict_drop_firstOverlapping hint h, hsplit, Child.all_append,
      restrict_append, restrict_drop_lastOverlapping hint h, append_nil]

/-- `overlapping_child_cids` selects what holds the range. -/
theorem overlappingChildCids_spec (hint : n.IsInternal level kids) (h : Kids p l spanEnd kids) :
    ∃ sel, n.overlappingChildCids r spanEnd = .ok (sel.map fun c => (c.1, c.2.cid)) ∧
      Selected p l r (Child.all kids) sel := by
  obtain ⟨hspans, hsorted, hwindow⟩ := h.window (r := r) hint
  obtain ⟨sel, hsel, hspec⟩ := overlapping_spec (r := r) hspans hsorted
  refine ⟨sel, ?_, hspec.subtree, hspec.bounded, hwindow ▸ hspec.restrict⟩
  rw [Node.overlappingChildCids, hint.ensureValueCount, ok_bind, hsel]

end Children

/-! ### Aligning children in a range -/

section Align

variable {p : Manager} {n l : Nat} {spanEnd : Option Bytes} {r : KeyRange} {kb ko : List Child}
  {cb : Child}

/-- The frames of the range diff stand for the differences of their subtrees in the range. -/
def rangeFraming (r : KeyRange) : Framing RangeDiffFrame where
  compare := .compare
  subtree kind cid spanEnd := kind.rangeFrame (spanEnd, cid)
  cids := Manager.rangeFrameCids
  select := r.select
  cids_compare _ _ _ := rfl
  cids_subtree kind _ _ := by cases kind <;> rfl
  select_nil := rfl

/-- The frames of one kind for selected children. -/
theorem Selected.frames {es : List Entry} {sel : List (Option Bytes × Child)}
    (h : Selected p l r es sel) (kind : DiffFrameKind) (hl : l < n) :
    (rangeFraming r).Mean p n
      ((sel.map fun c => (c.1, c.2.cid)).map kind.rangeFrame) ((r.restrict es).map kind.diff) := by
  obtain ⟨hsub, hbound, hes⟩ := h
  rw [hes]
  clear hes
  induction sel with
  | nil => exact .nil
  | cons c sel ih =>
    rw [flatMap_cons, map_append, ← select_map]
    exact .cons (.subtree kind hl (hsub c mem_cons_self) (hbound c mem_cons_self))
      (ih (fun d hd => hsub d (.tail _ hd))
        fun d hd => hbound d (.tail _ hd))

theorem Kids.select_diff (hb : Kids p l spanEnd kb) (ho : Kids p l spanEnd ko) :
    r.select (diff (Child.all kb) (Child.all ko)) =
      diff (r.restrict (Child.all kb)) (r.restrict (Child.all ko)) :=
  r.select_diff hb.sorted ho.sorted

/-- A first child whose span misses the range holds nothing in it. -/
theorem Kids.restrict_head {c : Child} {kids : List Child} (h : Kids p l spanEnd (c :: kids))
    {s : ChildSpan} (hs : spans (c :: kids) spanEnd = s :: spans kids spanEnd)
    (hover : ¬ s.overlaps r.start r.stop = true) : r.restrict c.entries = [] := by
  obtain rfl := (cons.inj hs).1
  exact restrict_of_not_overlaps hover h.head_bounded
    fun _ he => (h.subtree c mem_cons_self).sorted.firstKey_le he

/-- A base child with nothing in the range can be skipped. -/
theorem Kids.select_skip_base (hb : Kids p l spanEnd (cb :: kb)) (ho : Kids p l spanEnd ko)
    (hnil : r.restrict cb.entries = []) :
    r.select (diff (Child.all (cb :: kb)) (Child.all ko)) =
      r.select (diff (Child.all kb) (Child.all ko)) := by
  rw [hb.select_diff ho, hb.tail.select_diff ho, Child.all_cons, restrict_append, hnil, nil_append]

/-- So can a child of the other node. -/
theorem Kids.select_skip_other {co : Child} (hb : Kids p l spanEnd kb)
    (ho : Kids p l spanEnd (co :: ko)) (hnil : r.restrict co.entries = []) :
    r.select (diff (Child.all kb) (Child.all (co :: ko))) =
      r.select (diff (Child.all kb) (Child.all ko)) := by
  rw [hb.select_diff ho, hb.select_diff ho.tail, Child.all_cons, restrict_append, hnil, nil_append]

/-- The alignment with the base child `cb` held. -/
theorem alignRangeStep_spec
    (rest : ∀ {ko : List Child}, Kids p l spanEnd ko →
      AlignSpec ((rangeFraming r).Means p (l + 1))
        (r.select (diff (Child.all kb) (Child.all ko)))
        (alignRange r (spans kb spanEnd) (spans ko spanEnd)))
    (hb : Kids p l spanEnd (cb :: kb)) (ho : Kids p l spanEnd ko) :
    AlignSpec ((rangeFraming r).Means p (l + 1))
      (r.select (diff (Child.all (cb :: kb)) (Child.all ko)))
      (alignRange r (spans (cb :: kb) spanEnd) (spans ko spanEnd)) := by
  have hl : l < l + 1 := Nat.lt_succ_self l
  have hcb := hb.subtree cb mem_cons_self
  obtain ⟨removed, hremoved, hselb⟩ := overlapping_spec (r := r) hb.spanOf hb.sorted
  induction ko with
  | nil =>
    have heq : alignRange r (spans (cb :: kb) spanEnd) (spans [] spanEnd) =
        .ok (some ((removed.map fun c => (c.1, c.2.cid)).map
          DiffFrameKind.removed.rangeFrame)) :=
      congrArg (fun x : Result (List (Option Bytes × Cid)) =>
        x >>= fun cs => .ok (some (cs.map DiffFrameKind.removed.rangeFrame))) hremoved
    refine ⟨_, heq, fun frames hframes => ?_⟩
    obtain rfl := Option.some.inj hframes
    rw [Child.all_nil, diff_nil_right, select_map]
    exact hselb.frames .removed hl
  | cons co ko ih =>
    have hco := ho.subtree co mem_cons_self
    obtain ⟨added, hadded, hselo⟩ := overlapping_spec (r := r) ho.spanOf ho.sorted
    rw [spans] at hremoved hadded
    rw [spans, alignRange, spans, alignRangeStep]
    simp only [childCidFromBytes_bytes, ok_bind, pure_eq, hremoved, hadded]
    split
    case isTrue hbstart =>
      rw [hb.select_skip_base ho (restrict_of_ends hbstart hb.head_bounded)]
      exact rest ho
    split
    case isTrue hostart =>
      rw [hb.select_skip_other ho (restrict_of_ends hostart ho.head_bounded)]
      exact ih ho.tail
    split
    case isTrue hbreak =>
      -- both sides start past the range, so neither holds anything in it
      rw [Bool.and_eq_true] at hbreak
      have hbnil := restrict_of_starts hbreak.1 hb.firstKey_le
      have honil := restrict_of_starts hbreak.2 ho.firstKey_le
      refine ⟨_, rfl, fun frames hframes => ?_⟩
      obtain rfl := Option.some.inj hframes
      rw [hb.select_diff ho, hbnil, honil]
      have hframes := (hselb.frames .removed hl).append (hselo.frames .added hl)
      rwa [hbnil, honil] at hframes
    split
    case isTrue hsame =>
      split
      case isTrue =>
        exact (rest ho.tail).cons (.compare hl hl hcb hco hb.head_bounded
          (hsame.2 ▸ ho.head_bounded)) (by rw [hb.diff_same ho hsame.2, select_append]; rfl)
      case isFalse hover =>
        have hover' := hover
        rw [ChildSpan.overlaps, hsame.1, hsame.2] at hover'
        rw [hb.select_skip_base ho (hb.restrict_head rfl hover),
          hb.tail.select_skip_other ho (ho.restrict_head rfl hover')]
        exact rest ho.tail
    split
    case isTrue hbo =>
      split
      case isTrue =>
        exact (rest ho).cons (.subtree .removed hl hcb hb.head_bounded)
          (by rw [hb.diff_removed ho hbo, select_append]; rfl)
      case isFalse hover =>
        rw [hb.select_skip_base ho (hb.restrict_head rfl hover)]
        exact rest ho
    split
    case isTrue hob =>
      split
      case isTrue =>
        exact (ih ho.tail).cons (.subtree .added hl hco ho.head_bounded)
          (by rw [hb.diff_added ho hob, select_append]; rfl)
      case isFalse hover =>
        rw [hb.select_skip_other ho (ho.restrict_head rfl hover)]
        exact ih ho.tail
    exact ⟨none, rfl, by simp⟩

theorem alignRange_spec (hb : Kids p l spanEnd kb) (ho : Kids p l spanEnd ko) :
    AlignSpec ((rangeFraming r).Means p (l + 1))
      (r.select (diff (Child.all kb) (Child.all ko)))
      (alignRange r (spans kb spanEnd) (spans ko spanEnd)) := by
  induction kb generalizing ko with
  | nil =>
    obtain ⟨added, hadded, hsel⟩ := overlapping_spec (r := r) ho.spanOf ho.sorted
    refine ⟨some ((added.map fun c => (c.1, c.2.cid)).map DiffFrameKind.added.rangeFrame), ?_,
      fun frames hframes => ?_⟩
    · rw [spans, alignRange, hadded, ok_bind, pure_eq]
    · obtain rfl := Option.some.inj hframes
      rw [Child.all_nil, diff_nil_left, select_map]
      exact hsel.frames .added (Nat.lt_succ_self l)
  | cons cb kb ih => exact alignRangeStep_spec (fun ho => ih hb.tail ho) hb ho

end Align

/-! ### The range traversal -/

section Traversal

variable {p : Manager} {r : KeyRange} {es bs os : List Entry} {spanEnd : Option Bytes} {l m n : Nat}

theorem collectRange_eval {level : Nat} {n : Node} (h : NodeHolds p level n es)
    (hbound : Bounded spanEnd es) :
    StackLoop.Eval (fun _ => p.collectRangeStep r) [(n, spanEnd)] (r.restrict es) := by
  induction level generalizing n es spanEnd with
  | zero =>
    have h : n.IsLeaf es := h
    refine .leaf (.of_forall fun _ => ?_)
    simp [Manager.collectRangeStep, h.leaf, h.ensureValueCount, h.entriesInRange]
  | succ level ih =>
    obtain ⟨kids, hint, rfl, hkids⟩ := h
    obtain ⟨sel, hsel, hspec⟩ :=
      overlappingChildCids_spec (r := r) hint ⟨hkids, hint.sorted, hbound⟩
    choose! load hload using fun c hc => subtree_iff.mp (hspec.subtree c hc)
    have hstep : p.collectRangeStep r (n, spanEnd) = .ok (sel.map fun c => (load c, c.1), []) := by
      have hmap : (sel.map fun c => (c.1, c.2.cid)).mapM (fun c => p.loadArc c.2) =
          .ok (sel.map load) := by
        rw [mapM_map]
        exact mapM_eq_ok fun c hc => (hload c hc).1
      simp [Manager.collectRangeStep, hint.leaf, hsel, hmap, zip_map', Function.comp_def]
    rw [hspec.restrict]
    exact .single (.of_forall fun _ => hstep)
      (.of_forall fun c hc => ih (hload c hc).2 (hspec.bounded c hc))

theorem diffCollectedNodesRange_enough {base other : Node} (hb : NodeHolds p l base bs)
    (ho : NodeHolds p m other os) (hbs : Bounded spanEnd bs) (hos : Bounded spanEnd os) :
    Enough fun fuel => p.diffCollectedNodesRange r fuel base other spanEnd =
      .ok (r.select (diff bs os)) := by
  rw [r.select_diff hb.sorted ho.sorted]
  have hbe := (collectRange_eval (r := r) hb hbs).enough Error.outOfFuel
  have hoe := (collectRange_eval (r := r) ho hos).enough Error.outOfFuel
  exact (hbe.and hoe).mono fun fuel h => by
    simp [Manager.diffCollectedNodesRange, h.1, h.2, diffEntrySlices]

theorem processRangeSubtree_unfolds {cid : Cid} (kind : DiffFrameKind) (hl : l < n + 1)
    (h : Subtree p l cid es) (hes : Bounded spanEnd es) :
    (rangeFraming r).Unfolds p n (fun _ => p.processRangeSubtree r kind cid spanEnd)
      (r.select (es.map kind.diff)) := by
  rw [select_map]
  cases l with
  | zero =>
    obtain ⟨node, hn, hleaf⟩ := h
    refine ⟨[], (r.restrict es).map kind.diff, [], .nil, by simp, .of_forall fun _ => ?_⟩
    simp [Manager.processRangeSubtree, hn, hleaf.leaf, hleaf.ensureValueCount, hleaf.entriesInRange]
  | succ l =>
    obtain ⟨node, kids, hn, hint, rfl, hkids⟩ := h
    obtain ⟨sel, hsel, hspec⟩ := overlappingChildCids_spec (r := r) hint ⟨hkids, hint.sorted, hes⟩
    have hframes := hspec.frames kind (Nat.lt_of_succ_lt_succ hl)
    have hprefetch : p.prefetchRangeFrames _ = .ok () := hframes.prefetch
    refine ⟨_, [], _, hframes, rfl, .of_forall fun _ => ?_⟩
    simp only [Manager.processRangeSubtree, hn, ok_bind, hint.leaf, Bool.false_eq_true,
      if_false, hsel, hprefetch, pure_eq]

theorem processRangeCompare_unfolds {base other : Cid} (hl : l < n + 1) (hb : Subtree p l base bs)
    (ho : Subtree p m other os) (hbs : Bounded spanEnd bs) (hos : Bounded spanEnd os) :
    (rangeFraming r).Unfolds p n (fun fuel => p.processRangeCompare r fuel base other spanEnd)
      (r.select (diff bs os)) := by
  have hstep : ∀ fuel, p.processRangeCompare r fuel base other spanEnd =
      Framing.compareNodes p (diffLeafNodesRange r) (p.diffCollectedNodesRange r fuel · · spanEnd)
        (p.enqueueInternalRangeDiff r fuel · · spanEnd) base other := fun _ => rfl
  simp only [hstep]
  refine Framing.compareNodes_unfolds hl hb ho (fun b o hb ho => ?_)
    (fun b o hb ho => diffCollectedNodesRange_enough hb ho hbs hos) fun l b o hb ho => ?_
  · show _ = Except.ok (r.select _)
    rw [r.select_diff hb.sorted ho.sorted]
    simp [diffLeafNodesRange, hb.ensureValueCount, ho.ensureValueCount, hb.entriesInRange,
      ho.entriesInRange, diffEntrySlices]
  · have hwhole := diffCollectedNodesRange_enough (r := r) hb ho hbs hos
    obtain ⟨kb, hib, rfl, hkb⟩ := hb
    obtain ⟨ko, hio, rfl, hko⟩ := ho
    have hKb : Kids p l spanEnd kb := ⟨hkb, hib.sorted, hbs⟩
    have hKo : Kids p l spanEnd ko := ⟨hko, hio.sorted, hos⟩
    have haligned := alignRange_spec (r := r) (hKb.drop (b.firstOverlapping r))
      (hKo.drop (o.firstOverlapping r))
    -- the children before the first overlapping ones hold nothing in the range
    rw [(hKb.drop (b.firstOverlapping r)).select_diff (hKo.drop (o.firstOverlapping r)),
      restrict_drop_firstOverlapping hib hKb, restrict_drop_firstOverlapping hio hKo,
      ← hKb.select_diff hKo, ← Child.spans_drop, ← Child.spans_drop, ← hib.childSpans,
      ← hio.childSpans] at haligned
    refine Framing.AlignSpec.unfolds haligned (fun frames hr hprefetch fuel => ?_) fun hr =>
      hwhole.mono fun fuel h => ?_
    · have hprefetch : p.prefetchRangeFrames frames = .ok () := hprefetch
      simp [Manager.enqueueInternalRangeDiff, hib.ensureValueCount, hio.ensureValueCount, hr,
        hprefetch]
    · simp [Manager.enqueueInternalRangeDiff, hib.ensureValueCount, hio.ensureValueCount, hr, h,
        rangeFraming]

/-- A frame emits what it stands for. -/
theorem processRangeFrame_eval : ∀ frame d, (rangeFraming r).Means p n frame d →
    StackLoop.Eval (p.processRangeFrame r) [frame] d := by
  refine Framing.eval processRangeCompare_unfolds fun kind hl h hes => ?_
  cases kind <;> exact processRangeSubtree_unfolds _ hl h hes

/-- The traversal emits the part of the diff in the range. -/
theorem rangeTraversal_enough {base other : Tree} (hb : Holds p base.root bs)
    (ho : Holds p other.root os) :
    Enough fun fuel => StackLoop.run Error.outOfFuel (p.processRangeFrame r fuel) fuel
      (Manager.initialRangeStack base other) = .ok (r.select (diff bs os)) := by
  obtain ⟨n, hframes⟩ := (rangeFraming r).initial_means hb ho
  exact (hframes.eval processRangeFrame_eval).enough .outOfFuel

end Traversal

/-! ### Reading the range diff off the lineage -/

section Lineage

variable {r : KeyRange} {ms : List Mutation}

/-- The partition points cut out the mutations in the range. -/
theorem selectedChanges_eq (hs : StrictlySorted ms) (hr : endsBeforeOrAt r.stop r.start = false) :
    selectedChanges r ms = ms.filter fun m => r.contains m.key := by
  have hbelow : ∀ key : Bytes, ms.Pairwise fun a b =>
      decide (b.key < key) = true → decide (a.key < key) = true :=
    fun key => hs.imp fun hab hb => by simpa using hab.trans (by simpa using hb)
  rw [selectedChanges]
  cases hstop : r.stop with
  | none =>
    simp only [take_length, mutationLowerBound]
    rw [drop_takeWhile_eq_filter (hbelow r.start)]
    refine filter_congr fun m _ => ?_
    rw [Bool.eq_iff_iff, contains_iff]
    simp [hstop]
  | some stop =>
    have hlt : r.start < stop := by simpa [hstop, endsBeforeOrAt] using hr
    simp only [mutationLowerBound]
    rw [drop_take_partition (hbelow r.start) (hbelow stop) fun m _ hm => by
      simpa using (show m.key < r.start by simpa using hm).trans hlt]
    refine filter_congr fun m _ => ?_
    rw [Bool.eq_iff_iff, contains_iff]
    simp [hstop, and_comm]

theorem mem_lineageDiff {m : Mutation} {v : Option Bytes} {d : Diff} :
    d ∈ lineageDiff m v ↔ d.key = m.key ∧
      IsDiff (fun _ => v) (fun _ => m.value) d := by
  cases m <;> cases v <;> cases d <;>
    grind [lineageDiff, IsDiff, Diff.key, Mutation.key, Mutation.value]

theorem lineageDiff_sorted {f : Bytes → Option Bytes} (hs : StrictlySorted ms) :
    (ms.flatMap fun m => lineageDiff m (f m.key)).Pairwise fun d d' => d.key < d'.key := by
  rw [pairwise_flatMap]
  constructor
  · intro m _
    -- at most one difference per mutation
    unfold lineageDiff
    split
    · split <;> simp
    all_goals simp
  · refine hs.imp fun hab d hd d' hd' => ?_
    rw [(mem_lineageDiff.mp hd).1, (mem_lineageDiff.mp hd').1]
    exact hab

/-- Mutations that lead from one map to the other say what differs, key by key. -/
theorem lineageDiff_eq {bs os : List Entry} (hb : Sorted bs) (ho : Sorted os)
    (hs : StrictlySorted ms) (hlinks : lookup os = applyMutations (lookup bs) ms) :
    ((ms.filter fun m => r.contains m.key).flatMap fun m => lineageDiff m (lookup bs m.key)) =
      r.select (diff bs os) := by
  refine eq_of_mem_iff (lineageDiff_sorted (hs.filter _))
    ((diff_sorted hb ho).filter _) fun d => ?_
  have hisDiff : ∀ m ∈ ms, d.key = m.key → (IsDiff (lookup bs) (lookup os) d ↔
      IsDiff (fun _ => lookup bs m.key) (fun _ => m.value) d) := by
    intro m hm hk
    have hval : lookup os m.key = m.value := by rw [hlinks]; exact Edits.apply_of_mem _ _ hs hm
    cases d <;> simp only [Diff.key] at hk <;> subst hk <;>
      simp only [IsDiff, hval]
  rw [mem_flatMap, KeyRange.select, mem_filter, mem_diff hb ho]
  constructor
  · rintro ⟨m, hm, hd⟩
    obtain ⟨hm, hc⟩ := mem_filter.mp hm
    obtain ⟨hk, hd⟩ := mem_lineageDiff.mp hd
    exact ⟨(hisDiff m hm hk).mpr hd, hk ▸ hc⟩
  · rintro ⟨hd, hc⟩
    -- a key without a mutation keeps its value
    have hne : lookup bs d.key ≠ lookup os d.key := exists_isDiff_iff.mp ⟨d, hd, rfl⟩
    obtain ⟨m, hm, hk⟩ : ∃ m ∈ ms, m.key = d.key := by
      by_contra hnone
      push Not at hnone
      exact hne (by rw [hlinks]; exact (Edits.apply_of_forall_ne _ _ hnone).symm)
    exact ⟨m, mem_filter.mpr ⟨hm, hk ▸ hc⟩,
      mem_lineageDiff.mpr ⟨hk.symm, (hisDiff m hm hk.symm).mp hd⟩⟩

end Lineage

/-! ### Diff exactness -/

section Exact

variable {p : Manager} {base other : Tree} {bs os : List Entry}

theorem computeRangeDiff_eq (hl : p.LineageSound) (hb : Holds p base.root bs)
    (ho : Holds p other.root os) (start : Bytes) (stop : Option Bytes) :
    Enough fun fuel => p.computeRangeDiff fuel base other start stop =
      .ok ((diff bs os).filter fun d => keyInRange start stop d.key) := by
  let r : KeyRange := ⟨start, stop⟩
  change Enough fun fuel => p.computeRangeDiff fuel base other start stop =
    .ok (r.select (diff bs os))
  by_cases hempty : endsBeforeOrAt stop start = true
  · refine .of_forall fun fuel => ?_
    have hnil : r.select (diff bs os) = [] := by
      refine filter_eq_nil_iff.mpr fun d _ hc => ?_
      obtain ⟨hge, hlt⟩ := KeyRange.contains_iff.mp hc
      cases stop with
      | none => simp [endsBeforeOrAt] at hempty
      | some stop =>
        have hle : stop ≤ start := by simpa [endsBeforeOrAt] using hempty
        exact (hlt stop rfl).not_ge (hle.trans hge)
    rw [Manager.computeRangeDiff, if_pos hempty, hnil]
  · cases hms : p.branchChangesSince base other with
    | none =>
      refine (rangeTraversal_enough (r := r) hb ho).mono fun fuel h => ?_
      rw [Manager.computeRangeDiff, if_neg hempty, hms]
      exact h
    | some ms =>
      obtain ⟨hs, hlinks⟩ := hl.changesSince hb ho hms
      refine (Manager.getMany_eq hb).mono fun fuel h => ?_
      rw [Manager.computeRangeDiff, if_neg hempty, hms]
      simp only [h, ok_bind, pure_eq]
      rw [selectedChanges_eq (r := r) hs (by simpa using hempty),
        ← lineageDiff_eq hb.sorted ho.sorted hs hlinks, map_map, zipWith_map_right,
        zipWith_self, flatMap_def]
      rfl

end Exact

section

open Reversed

end

end Prolly

import Prolly.Diff.Model
import Prolly.Reads

/-!
# Prolly.Diff.Traversal

The eager diff is exact. Each frame of the traversal stands for a list of
differences: an added or removed subtree for its entries, a comparison for the
two-pointer merge of the entries below its two roots. One step of the traversal
replaces a frame by frames that stand for the same differences in the same order
(`processFrame_eval`, by induction on the height), so the whole stack emits what
it stands for.

The only non-local step is the alignment of the children of two internal nodes
(`alignFrames_spec`): where child spans match or do not overlap, the merge of the
two contents splits at the span ends (`SortedAssoc.diff_append`); where they
overlap otherwise, the contents are compared as a whole.
-/

namespace Prolly

open SortedAssoc
open List

/-! ### Nodes that hold entries -/

variable {n : Node} {es : List Entry} {level : Nat} {kids : List Child} {p : Manager}

theorem Node.IsLeaf.ensureValueCount (h : n.IsLeaf es) : n.ensureValueCount = .ok () := by
  simp [Node.ensureValueCount, h.keys, h.vals]

theorem Node.IsInternal.ensureValueCount (h : n.IsInternal level kids) :
    n.ensureValueCount = .ok () := by
  simp [Node.ensureValueCount, h.keys, h.vals]

theorem mapM_childCidFromBytes (kids : List Child) :
    (kids.map fun c => c.cid.bytes).mapM childCidFromBytes = .ok (kids.map Child.cid) := by
  induction kids with
  | nil => rfl
  | cons c kids ih =>
    rw [map_cons, mapM_cons, childCidFromBytes_bytes, ok_bind, ih]
    rfl

theorem Node.IsInternal.childCids (h : n.IsInternal level kids) :
    n.childCids = .ok (kids.map Child.cid) := by
  rw [Node.childCids, h.ensureValueCount, ok_bind, h.vals, mapM_childCidFromBytes]

theorem NodeHolds.sorted (h : NodeHolds p level n es) : Sorted es := by
  cases level with
  | zero => exact Node.IsLeaf.sorted h
  | succ level => obtain ⟨kids, hint, rfl, -⟩ := h; exact hint.sorted

theorem NodeHolds.level_eq (h : NodeHolds p level n es) : n.level = level := by
  cases level with
  | zero => exact Node.IsLeaf.level h
  | succ level => obtain ⟨kids, hint, -, -⟩ := h; exact hint.level

theorem NodeHolds.leaf_eq (h : NodeHolds p level n es) : n.leaf = decide (level = 0) := by
  cases level with
  | zero => exact Node.IsLeaf.leaf h
  | succ level => obtain ⟨kids, hint, -, -⟩ := h; simpa using hint.leaf

theorem diff_nil_left (os : List Entry) :
    diff [] os = os.map DiffFrameKind.added.diff := rfl

theorem diff_nil_right (bs : List Entry) :
    diff bs [] = bs.map DiffFrameKind.removed.diff := SortedAssoc.diff_nil_right bs

/-! ### Collecting subtrees -/

section Collect

variable {p : Manager} {level : Nat} {n : Node} {es : List Entry}

theorem collectEntries_eval (h : NodeHolds p level n es) :
    StackLoop.Eval (fun _ => p.collectEntriesStep) [n] es := by
  induction level generalizing n es with
  | zero =>
    have h : n.IsLeaf es := h
    refine .leaf (.of_forall fun _ => ?_)
    simp [Manager.collectEntriesStep, h.leaf, h.ensureValueCount, h.entries_eq]
  | succ level ih =>
    obtain ⟨kids, hint, rfl, hkids⟩ := h
    -- the children are loaded and replace the node on the stack
    choose! load hload using fun c hc => subtree_iff.mp (hkids c hc)
    have hstep : p.collectEntriesStep n = .ok (kids.map load, []) := by
      have hmap : (kids.map Child.cid).mapM p.loadArc = .ok (kids.map load) := by
        rw [mapM_map]
        exact mapM_eq_ok fun c hc => (hload c hc).1
      simp [Manager.collectEntriesStep, hint.leaf, hint.childCids, hmap]
    exact .single (.of_forall fun _ => hstep) (.of_forall fun c hc => ih (hload c hc).2)

theorem collectEntries_enough (h : NodeHolds p level n es) :
    Enough fun fuel => p.collectEntries fuel n = .ok es :=
  (collectEntries_eval h).enough .outOfFuel

theorem diffCollectedNodes_enough {l m : Nat} {base other : Node} {bs os : List Entry}
    (hb : NodeHolds p l base bs) (ho : NodeHolds p m other os) :
    Enough fun fuel => p.diffCollectedNodes fuel base other = .ok (diff bs os) :=
  ((collectEntries_enough hb).and (collectEntries_enough ho)).mono fun fuel h => by
    simp [Manager.diffCollectedNodes, h.1, h.2, diffEntrySlices]

theorem collectAdded_eval {cid : Cid} (h : Subtree p level cid es) :
    StackLoop.Eval (fun _ => p.collectAddedStep) [cid] (es.map DiffFrameKind.added.diff) := by
  induction level generalizing cid es with
  | zero =>
    obtain ⟨n, hn, hleaf⟩ := h
    refine .leaf (.of_forall fun _ => ?_)
    simp [Manager.collectAddedStep, hn, hleaf.leaf, hleaf.ensureValueCount, hleaf.entries_eq]
  | succ level ih =>
    obtain ⟨n, kids, hn, hint, rfl, hkids⟩ := h
    have hstep : p.collectAddedStep cid = .ok (kids.map Child.cid, []) := by
      simp [Manager.collectAddedStep, hn, hint.leaf, hint.childCids]
    rw [Child.all, map_flatMap]
    exact .single (.of_forall fun _ => hstep) (.of_forall fun c hc => ih (hkids c hc))

theorem collectAddedCids_enough {kids : List Child}
    (h : ∀ c ∈ kids, Subtree p level c.cid c.entries) :
    Enough fun fuel => p.collectAddedCids fuel (kids.map Child.cid) =
      .ok ((Child.all kids).map DiffFrameKind.added.diff) := by
  rw [Child.all, map_flatMap]
  exact (StackLoop.Eval.of_forall fun c hc => collectAdded_eval (h c hc)).enough .outOfFuel

end Collect

/-! ### The append-only comparison -/

section AppendOnly

variable {p : Manager} {n base other : Node} {bs os : List Entry} {groups : List (List Child)}
  {l m : Nat} {rest : List Child}

/-- Children that are still to be collected: groups of subtrees, each group of one
height. -/
def Groups (p : Manager) (groups : List (List Child)) : Prop :=
  ∀ g ∈ groups, ∃ level, ∀ c ∈ g, Subtree p level c.cid c.entries

theorem Groups.nil (p : Manager) : Groups p [] :=
  fun _ h => absurd h not_mem_nil

theorem Groups.cons {groups : List (List Child)} {g : List Child} {level : Nat}
    (hg : ∀ c ∈ g, Subtree p level c.cid c.entries) (h : Groups p groups) :
    Groups p (g :: groups) :=
  forall_mem_cons.mpr ⟨⟨level, hg⟩, h⟩

theorem Node.IsInternal.entries_eq {level : Nat} {kids : List Child} (h : n.IsInternal level kids) :
    n.entries = kids.map fun c => (firstKey c.entries, c.cid.bytes) := by
  rw [Node.entries, h.keys, h.vals, zip_map']

theorem sameChildren_spec (xs ys : List Child) (hlen : xs.length = ys.length) :
    ∃ b, Manager.sameChildren (xs.map fun c => (firstKey c.entries, c.cid.bytes))
        (ys.map fun c => (firstKey c.entries, c.cid.bytes)) = .ok b ∧
      (b = true → (xs.map fun c => c.cid.bytes) = ys.map fun c => c.cid.bytes) := by
  induction xs generalizing ys with
  | nil =>
    obtain rfl := length_eq_zero_iff.mp hlen.symm
    exact ⟨true, rfl, fun _ => rfl⟩
  | cons x xs ih =>
    cases ys with
    | nil => simp at hlen
    | cons y ys =>
      obtain ⟨b, hb, heq⟩ := ih ys (by simpa using hlen)
      simp only [map_cons, Manager.sameChildren, childCidFromBytes_bytes, ok_bind]
      by_cases hk : firstKey x.entries = firstKey y.entries
      · by_cases hc : x.cid = y.cid
        · exact ⟨b, by simp [hk, hc, hb], fun h => by rw [hc, heq h]⟩
        · exact ⟨false, by simp [hk, hc], by simp⟩
      · exact ⟨false, by simp [hk], by simp⟩

/-- What the loop promises about its result. -/
def AppendOnlyResult (p : Manager) (bs os : List Entry) (groups : List (List Child))
    (r : Option (List Diff × List (List Cid))) : Prop :=
  r = none ∨ ∃ tail groups', r = some (tail.map DiffFrameKind.added.diff,
      groups'.map fun g => g.map Child.cid) ∧ Groups p groups' ∧
    diff bs (os ++ groups.flatMap Child.all) =
      (tail ++ groups'.flatMap Child.all).map DiffFrameKind.added.diff

/-- A common prefix of both contents can be dropped. -/
theorem AppendOnlyResult.append_left {cs : List Entry} {r : Option (List Diff × List (List Cid))}
    (h : AppendOnlyResult p bs os groups r) :
    AppendOnlyResult p (cs ++ bs) (cs ++ os) groups r := by
  refine h.imp_right ?_
  rintro ⟨tail, groups', rfl, hg, hdiff⟩
  exact ⟨tail, groups', rfl, hg, by rw [append_assoc, diff_append_left, hdiff]⟩

/-- The loop ends with a result as promised, the same for every bound above the height
of the other tree. -/
def AppendOnlySpec (p : Manager) (m : Nat) (base other : Node) (bs os : List Entry)
    (groups : List (List Child)) : Prop :=
  ∃ r, (∀ fuel, m < fuel →
      p.appendOnlyLoop fuel base other (groups.map fun g => g.map Child.cid) = .ok r) ∧
    AppendOnlyResult p bs os groups r

/-- One iteration where the other tree is higher: everything right of its first child
is added. -/
theorem appendOnly_descend {c : Child} (hlm : l < m + 1) (hb : NodeHolds p l base bs)
    (hint : other.IsInternal (m + 1) (c :: rest)) (hn : p.loadArc c.cid = .ok n)
    (ih : AppendOnlySpec p m base n bs c.entries (rest :: groups)) :
    AppendOnlySpec p (m + 1) base other bs (Child.all (c :: rest)) groups := by
  have hlevel : other.level > base.level := by rw [hb.level_eq, hint.level]; exact hlm
  have hempty : other.isEmpty = false := by simp [Node.isEmpty, hint.keys]
  have hfirst : other.childCid 0 = .ok c.cid := by simp [Node.childCid, hint.vals]
  have hadded : other.vals.tail.mapM childCidFromBytes = .ok (rest.map Child.cid) := by
    rw [hint.vals]; exact mapM_childCidFromBytes rest
  obtain ⟨r, hr, hspec⟩ := ih
  refine ⟨r, fun fuel hfuel => ?_, ?_⟩
  · obtain _ | fuel := fuel
    · omega
    rw [Manager.appendOnlyLoop, if_pos hlevel]
    simpa [hint.leaf, hempty, hint.ensureValueCount, hfirst, hadded, hn] using hr fuel (by omega)
  · simpa [AppendOnlyResult, append_assoc] using hspec

/-- One iteration at two leaves: the other leaf starts with the base's entries or the
comparison gives up. -/
theorem appendOnly_leaf (hb : base.IsLeaf bs) (ho : other.IsLeaf os) (hlen : ¬ other.len < base.len)
    (hg : Groups p groups) : AppendOnlySpec p 0 base other bs os groups := by
  have hbl : base.len = bs.length := by simp [Node.len, hb.keys]
  have hguard : ¬ (base.level ≠ other.level ∨ base.leaf ≠ other.leaf ∨ other.len < base.len) := by
    simpa [hb.level, ho.level, hb.leaf, ho.leaf] using hlen
  have hstep : ∀ fuel, 0 < fuel →
      p.appendOnlyLoop fuel base other (groups.map fun g => g.map Child.cid) =
        if bs ≠ os.take bs.length then .ok none
        else .ok (some ((os.drop bs.length).map DiffFrameKind.added.diff,
          groups.map fun g => g.map Child.cid)) := by
    intro fuel hfuel
    obtain _ | fuel := fuel
    · omega
    rw [Manager.appendOnlyLoop, if_neg (by simp [hb.level, ho.level]), if_neg hguard]
    simp only [hb.leaf, if_true, hb.ensureValueCount, ho.ensureValueCount, ok_bind,
      hb.entries_eq, ho.entries_eq, hbl]
    split <;> rfl
  by_cases heq : bs = os.take bs.length
  · refine ⟨_, fun fuel hfuel => by rw [hstep fuel hfuel, if_neg (by simpa using heq)],
      .inr ⟨os.drop bs.length, groups, rfl, hg, ?_⟩⟩
    conv_lhs => rw [← take_append_drop bs.length os, ← heq, append_assoc]
    simpa [diff_nil_left] using diff_append_left bs []
      (os.drop bs.length ++ groups.flatMap Child.all)
  · exact ⟨none, fun fuel hfuel => by rw [hstep fuel hfuel, if_pos (by simpa using heq)], .inl rfl⟩

/-- One iteration at two internal nodes of the same height: the children left of the
right edge of `base` agree, and the walk goes on below the edge. -/
theorem appendOnly_edge {pre pre' : List Child} {cb co : Child}
    (ih : ∀ {base other : Node} {bs os : List Entry} {groups : List (List Child)},
      NodeHolds p l base bs → NodeHolds p l other os → Groups p groups →
      AppendOnlySpec p l base other bs os groups) (hib : base.IsInternal (l + 1) (pre ++ [cb]))
    (hio : other.IsInternal (l + 1) (pre' ++ co :: rest))
    (hkb : ∀ c ∈ pre ++ [cb], Subtree p l c.cid c.entries)
    (hko : ∀ c ∈ pre' ++ co :: rest, Subtree p l c.cid c.entries) (hpre : pre.length = pre'.length)
    (hg : Groups p groups) :
    AppendOnlySpec p (l + 1) base other (Child.all (pre ++ [cb])) (Child.all (pre' ++ co :: rest))
      groups := by
  have hlen : base.len = pre.length + 1 := by simp [Node.len, hib.keys]
  have hguard : ¬ (base.level ≠ other.level ∨ base.leaf ≠ other.leaf ∨ other.len < base.len) := by
    simp [hib.level, hio.level, hib.leaf, hio.leaf, Node.len, hib.keys, hio.keys, hpre]
  have hempty : base.isEmpty = false := by simp [Node.isEmpty, hib.keys]
  obtain ⟨same, hsame, hcids⟩ := sameChildren_spec pre pre' hpre
  have hsame' : Manager.sameChildren (base.entries.take pre.length)
      (other.entries.take pre.length) = .ok same := by
    rw [hib.entries_eq, hio.entries_eq, ← hsame]
    congr 1
    · simp
    · rw [hpre]; simp
  have hadded : (other.vals.drop (pre.length + 1)).mapM childCidFromBytes =
      .ok (rest.map Child.cid) := by
    rw [hio.vals, ← mapM_childCidFromBytes, ← map_drop, hpre]
    simp
  have hbase : base.childCid pre.length = .ok cb.cid := by simp [Node.childCid, hib.vals]
  have hother : other.childCid pre.length = .ok co.cid := by simp [Node.childCid, hio.vals, hpre]
  have hrest : ∀ c ∈ rest, Subtree p l c.cid c.entries := fun c hc => hko c (by simp [hc])
  -- the iteration with every check but the three comparisons evaluated
  have hstep : ∀ fuel, p.appendOnlyLoop (fuel + 1) base other
        (groups.map fun g => g.map Child.cid) =
      if !same then .ok none
      else if base.keys[pre.length]? ≠ other.keys[pre.length]? then .ok none
      else if cb.cid = co.cid then
        .ok (some ([], (rest :: groups).map fun g => g.map Child.cid))
      else
        p.loadArc cb.cid >>= fun nb => p.loadArc co.cid >>= fun no =>
          p.appendOnlyLoop fuel nb no ((rest :: groups).map fun g => g.map Child.cid) := by
    intro fuel
    rw [Manager.appendOnlyLoop, if_neg (by simp [hib.level, hio.level]), if_neg hguard]
    simp only [hib.leaf, hempty, hib.ensureValueCount, hio.ensureValueCount, ok_bind, hlen,
      Nat.add_sub_cancel, hsame', hadded, hbase, hother, Bool.false_eq_true, if_false,
      map_cons, pure_eq]
  have hsucc : ∀ {r}, (∀ fuel, l < fuel → p.appendOnlyLoop (fuel + 1) base other
        (groups.map fun g => g.map Child.cid) = .ok r) →
      ∀ fuel, l + 1 < fuel → p.appendOnlyLoop fuel base other
        (groups.map fun g => g.map Child.cid) = .ok r := by
    intro r h fuel hfuel
    obtain _ | fuel := fuel
    · omega
    exact h fuel (by omega)
  cases same with
  | false => exact ⟨none, hsucc fun fuel _ => by simp [hstep], .inl rfl⟩
  | true =>
    -- equal identifiers left of the edge mean equal contents
    have hpre' : pre = pre' := Subtree.kids_unique (fun h h' => (h.unique h').2) (hcids rfl)
      (fun c hc => hkb c (by simp [hc])) (fun c hc => hko c (by simp [hc]))
    subst hpre'
    rw [Child.all_append, Child.all_append, Child.all_cons, Child.all_cons, Child.all_nil]
    by_cases hkey : base.keys[pre.length]? = other.keys[pre.length]?
    · by_cases hedge : cb.cid = co.cid
      · have hcbo : cb.entries = co.entries :=
          ((hkb cb (by simp)).unique (hedge ▸ hko co (by simp))).2
        refine ⟨_, hsucc fun fuel _ => by simp [hstep, hkey, hedge]; rfl,
          AppendOnlyResult.append_left (.inr ⟨[], rest :: groups, by simp, hg.cons hrest, ?_⟩)⟩
        rw [append_assoc, hcbo, diff_append_left]
        simp [diff_nil_left]
      · obtain ⟨nb, hnb, hcb⟩ := subtree_iff.mp (hkb cb (by simp))
        obtain ⟨no, hno, hco⟩ := subtree_iff.mp (hko co (by simp))
        obtain ⟨r, hr, hspec⟩ := ih hcb hco (hg.cons hrest)
        refine ⟨r, hsucc fun fuel hfuel => ?_, AppendOnlyResult.append_left ?_⟩
        · simpa [hstep, hkey, hedge, hnb, hno] using hr fuel hfuel
        · simpa [AppendOnlyResult, append_assoc] using hspec
    · exact ⟨none, hsucc fun fuel _ => by simp [hstep, hkey], .inl rfl⟩

/-- The loop either gives up or finds the other tree's contents to be the base's,
followed by what it has put aside. The induction is on the height of the other tree,
which every iteration lowers. -/
theorem appendOnlyLoop_spec : ∀ {m l : Nat} {base other : Node} {bs os : List Entry}
    {groups : List (List Child)}, NodeHolds p l base bs → NodeHolds p m other os →
    Groups p groups → AppendOnlySpec p m base other bs os groups := by
  intro m
  induction m with
  | zero =>
    intro l base other bs os groups hb ho hg
    by_cases hguard : base.level ≠ other.level ∨ base.leaf ≠ other.leaf ∨ other.len < base.len
    · refine ⟨none, fun fuel hfuel => ?_, .inl rfl⟩
      obtain _ | fuel := fuel
      · omega
      rw [Manager.appendOnlyLoop, if_neg (by simp [ho.level_eq]), if_pos hguard]
    · simp only [not_or, not_not] at hguard
      obtain rfl : l = 0 := by rw [← hb.level_eq, hguard.1, ho.level_eq]
      exact appendOnly_leaf hb ho hguard.2.2 hg
  | succ m ih =>
    intro l base other bs os groups hb ho hg
    obtain ⟨ko, hio, rfl, hko⟩ := ho
    by_cases hlm : l < m + 1
    · obtain ⟨c, rest, rfl⟩ := exists_cons_of_ne_nil hio.nonempty
      obtain ⟨n, hn, hc⟩ := subtree_iff.mp (hko c mem_cons_self)
      exact appendOnly_descend hlm hb hio hn
        (ih hb hc (hg.cons fun d hd => hko d (.tail _ hd)))
    · by_cases hguard : base.level ≠ other.level ∨ base.leaf ≠ other.leaf ∨ other.len < base.len
      · refine ⟨none, fun fuel hfuel => ?_, .inl rfl⟩
        obtain _ | fuel := fuel
        · omega
        rw [Manager.appendOnlyLoop, if_neg (by rw [hb.level_eq, hio.level]; exact hlm),
          if_pos hguard]
      · simp only [not_or, not_not, not_lt] at hguard
        obtain rfl : l = m + 1 := by rw [← hb.level_eq, hguard.1, hio.level]
        obtain ⟨kb, hib, rfl, hkb⟩ := hb
        obtain ⟨pre, cb, rfl⟩ : ∃ pre c, kb = pre ++ [c] :=
          ⟨_, _, (dropLast_append_getLast hib.nonempty).symm⟩
        have hlen : pre.length < ko.length := by
          simpa [Node.len, hib.keys, hio.keys, Nat.succ_le_iff] using hguard.2.2
        obtain ⟨pre', co, rest, rfl, hpre⟩ : ∃ pre' co rest,
            ko = pre' ++ co :: rest ∧ pre.length = pre'.length :=
          ⟨ko.take pre.length, ko[pre.length], ko.drop (pre.length + 1),
            by rw [getElem_cons_drop hlen, take_append_drop],
            by rw [length_take, min_eq_left hlen.le]⟩
        exact appendOnly_edge ih hib hio hkb hko hpre hg

/-- When the comparison succeeds it is the diff. -/
theorem appendOnlyDiffNodes_enough (hb : NodeHolds p l base bs) (ho : NodeHolds p m other os) :
    Enough fun fuel => p.appendOnlyDiffNodes fuel base other = .ok none ∨
      p.appendOnlyDiffNodes fuel base other = .ok (some (diff bs os)) := by
  obtain ⟨r, hr, hspec⟩ := appendOnlyLoop_spec hb ho (Groups.nil p)
  have hloop : Enough fun fuel => p.appendOnlyLoop fuel base other [] = .ok r :=
    ⟨m + 1, fun fuel hfuel => hr fuel hfuel⟩
  rcases hspec with rfl | ⟨tail, groups, rfl, hg, hdiff⟩
  · exact hloop.mono fun fuel h => .inl (by simp [Manager.appendOnlyDiffNodes, h])
  · have hcollect : Enough fun fuel => ∀ g ∈ groups, p.collectAddedCids fuel (g.map Child.cid) =
        .ok ((Child.all g).map DiffFrameKind.added.diff) :=
      .forall_mem fun g hg' => by
        obtain ⟨level, h⟩ := hg g hg'
        exact collectAddedCids_enough h
    refine (hloop.and hcollect).mono fun fuel h => .inr ?_
    have hmap : (groups.map fun g => g.map Child.cid).mapM (p.collectAddedCids fuel) =
        .ok (groups.map fun g => (Child.all g).map DiffFrameKind.added.diff) := by
      rw [mapM_map]
      exact mapM_eq_ok h.2
    rw [flatMap_nil, append_nil] at hdiff
    rw [Manager.appendOnlyDiffNodes, h.1, ok_bind]
    simp only [hmap, ok_bind, hdiff, pure_eq]
    rw [map_append, map_flatMap, flatMap_def]

/-- An unaligned comparison is the diff, whichever way it is made. -/
theorem diffUnaligned_enough (hb : NodeHolds p l base bs) (ho : NodeHolds p m other os) :
    Enough fun fuel => p.diffUnaligned fuel base other = .ok (diff bs os) :=
  ((appendOnlyDiffNodes_enough hb ho).and (diffCollectedNodes_enough hb ho)).mono fun fuel h => by
    rcases h.1 with h1 | h1
    · simp [Manager.diffUnaligned, h1, h.2]
    · simp [Manager.diffUnaligned, h1]

end AppendOnly

/-! ### What frames stand for -/

/-- The keys lie before the end of a span. -/
def Bounded (spanEnd : Option Bytes) (es : List Entry) : Prop :=
  ∀ stop ∈ spanEnd, ∀ e ∈ es, e.1 < stop

theorem Bounded.none (es : List Entry) : Bounded none es := fun _ h => by cases h

/-- A kind of frames: how the comparison of two subtrees and a subtree of one tree are written, the
identifiers a frame will load, and which of its differences count. -/
structure Framing (F : Type) where
  compare : Cid → Cid → Option Bytes → F
  subtree : DiffFrameKind → Cid → Option Bytes → F
  cids : F → List Cid
  select : List Diff → List Diff
  cids_compare : ∀ base other spanEnd, cids (compare base other spanEnd) = [base, other]
  cids_subtree : ∀ kind cid spanEnd, cids (subtree kind cid spanEnd) = [cid]
  select_nil : select [] = []

def diffFraming : Framing DiffFrame where
  compare := .compare
  subtree kind cid _ := kind.frame cid
  cids := Manager.frameCids
  select := id
  cids_compare _ _ _ := rfl
  cids_subtree kind _ _ := by cases kind <;> rfl
  select_nil := rfl

/-- An alignment succeeds, and frames it returns stand for `ds`. -/
def AlignSpec {F : Type} (R : F → List Diff → Prop) (ds : List Diff)
    (aligned : Result (Option (List F))) : Prop :=
  ∃ r, aligned = .ok r ∧ ∀ frames, r = some frames → StackLoop.Concat R frames ds

/-- A frame in front of an aligned rest. -/
theorem AlignSpec.cons {F : Type} {R : F → List Diff → Prop} {d ds ds' : List Diff} {frame : F}
    {aligned : Result (Option (List F))} (h : AlignSpec R ds aligned) (hframe : R frame d)
    (hdiff : ds' = d ++ ds) :
    AlignSpec R ds' (aligned >>= fun frames => .ok (frames.map (frame :: ·))) := by
  obtain ⟨r, hr, hmeans⟩ := h
  refine ⟨r.map (frame :: ·), by rw [hr, ok_bind], fun frames hframes => ?_⟩
  obtain ⟨rest, rfl, rfl⟩ := Option.map_eq_some_iff.mp hframes
  exact hdiff ▸ .cons hframe (hmeans rest rfl)

namespace Framing

variable {F : Type} {f : Framing F} {p : Manager} {n l m : Nat} {frame : F} {d : List Diff}
  {bs os : List Entry}

/-- The differences a frame stands for, over subtrees of height less than `n`. -/
inductive Means (f : Framing F) (p : Manager) (n : Nat) : F → List Diff → Prop
  | compare {l m : Nat} {base other : Cid} {bs os : List Entry} {spanEnd : Option Bytes}
      (hl : l < n) (hm : m < n) (hb : Subtree p l base bs) (ho : Subtree p m other os)
      (hbs : Bounded spanEnd bs) (hos : Bounded spanEnd os) :
      Means f p n (f.compare base other spanEnd) (f.select (diff bs os))
  | subtree {l : Nat} {cid : Cid} {es : List Entry} {spanEnd : Option Bytes}
      (kind : DiffFrameKind) (hl : l < n) (h : Subtree p l cid es) (hes : Bounded spanEnd es) :
      Means f p n (f.subtree kind cid spanEnd) (f.select (es.map kind.diff))

/-- The differences a list of frames stands for. -/
abbrev Mean (f : Framing F) (p : Manager) (n : Nat) : List F → List Diff → Prop :=
  StackLoop.Concat (f.Means p n)

theorem Means.mono {n' : Nat} (hn : n ≤ n') (h : f.Means p n frame d) : f.Means p n' frame d := by
  cases h with
  | compare hl hm hb ho hbs hos =>
    exact .compare (hl.trans_le hn) (hm.trans_le hn) hb ho hbs hos
  | subtree kind hl h hes => exact .subtree kind (hl.trans_le hn) h hes

theorem Means.load (h : f.Means p n frame d) :
    ∀ cid ∈ f.cids frame, ∃ node, p.loadArc cid = .ok node := by
  cases h with
  | compare _ _ hb ho _ _ =>
    obtain ⟨b, hb, -⟩ := subtree_iff.mp hb
    obtain ⟨o, ho, -⟩ := subtree_iff.mp ho
    simp [f.cids_compare, hb, ho]
  | subtree kind _ h _ =>
    obtain ⟨node, h, -⟩ := subtree_iff.mp h
    simp [f.cids_subtree, h]

/-- The prefetch of what a list of frames will load. -/
def prefetch (f : Framing F) (p : Manager) (frames : List F) : Result Unit :=
  if frames.length ≤ 1 || !p.prefersBatchReads then .ok ()
  else do
    let _ ← (frames.flatMap f.cids).mapM p.loadArc
    return ()

/-- Frames that stand for something can be prefetched. -/
theorem Mean.prefetch {frames : List F} {ds : List Diff} (h : f.Mean p n frames ds) :
    f.prefetch p frames = .ok () := by
  have hload : ∀ cid ∈ frames.flatMap f.cids, ∃ node, p.loadArc cid = .ok node := by
    intro cid hcid
    obtain ⟨frame, hframe, hcid⟩ := mem_flatMap.mp hcid
    obtain ⟨d, hd⟩ := h.forall_mem frame hframe
    exact hd.load cid hcid
  rw [Framing.prefetch]
  split
  · rfl
  · choose! load hload using hload
    rw [mapM_eq_ok hload, ok_bind, pure_eq]

/-- A step replaces a frame by frames and differences that together are `d`. -/
def Unfolds (f : Framing F) (p : Manager) (n : Nat) (step : Nat → Result (List F × List Diff))
    (d : List Diff) : Prop :=
  ∃ frames out ds, f.Mean p n frames ds ∧ out ++ ds = d ∧
    Enough fun fuel => step fuel = .ok (frames, out)

/-- The children of two nodes, which are compared as a whole where they cannot be aligned. -/
theorem AlignSpec.unfolds {step : Nat → Result (List F × List Diff)}
    {aligned : Result (Option (List F))} (h : AlignSpec (f.Means p n) d aligned)
    (hframes : ∀ frames, aligned = .ok (some frames) → f.prefetch p frames = .ok () →
      ∀ fuel, step fuel = .ok (frames, []))
    (hwhole : aligned = .ok none → Enough fun fuel => step fuel = .ok ([], d)) :
    f.Unfolds p n step d := by
  obtain ⟨r, hr, hmeans⟩ := h
  cases r with
  | none => exact ⟨[], d, [], .nil, append_nil _, hwhole hr⟩
  | some frames =>
    have hmean : f.Mean p n frames d := hmeans frames rfl
    exact ⟨frames, [], d, hmean, rfl, .of_forall (hframes frames hr hmean.prefetch)⟩

/-- The comparison of two subtrees: leaves entry by entry, internal nodes of one height child by
child, and others as a whole. -/
def compareNodes (p : Manager) (leaves unaligned : Node → Node → Result (List Diff))
    (enqueue : Node → Node → Result (List F × List Diff)) (baseCid otherCid : Cid) :
    Result (List F × List Diff) :=
  if baseCid = otherCid then .ok ([], [])
  else do
    let base ← p.loadArc baseCid
    let other ← p.loadArc otherCid
    if base.leaf && other.leaf then return ([], ← leaves base other)
    else if !base.leaf && !other.leaf && base.level = other.level then enqueue base other
    else return ([], ← unaligned base other)

theorem compareNodes_unfolds {leaves : Node → Node → Result (List Diff)}
    {unaligned : Nat → Node → Node → Result (List Diff)}
    {enqueue : Nat → Node → Node → Result (List F × List Diff)} {base other : Cid} (hl : l < n + 1)
    (hb : Subtree p l base bs) (ho : Subtree p m other os)
    (hleaves : ∀ b o, b.IsLeaf bs → o.IsLeaf os →
      leaves b o = .ok (f.select (diff bs os)))
    (hunaligned : ∀ b o, NodeHolds p l b bs → NodeHolds p m o os →
      Enough fun fuel => unaligned fuel b o = .ok (f.select (diff bs os)))
    (henqueue : ∀ l b o, NodeHolds p (l + 1) b bs → NodeHolds p (l + 1) o os →
      f.Unfolds p (l + 1) (enqueue · b o) (f.select (diff bs os))) :
    f.Unfolds p n (fun fuel => compareNodes p leaves (unaligned fuel) (enqueue fuel) base other)
      (f.select (diff bs os)) := by
  by_cases hcid : base = other
  · subst hcid
    obtain rfl : bs = os := (hb.unique ho).2
    exact ⟨[], [], [], .nil, by simp [diff_self, f.select_nil], .of_forall fun fuel => if_pos rfl⟩
  obtain ⟨b, hbload, hb⟩ := subtree_iff.mp hb
  obtain ⟨o, hoload, ho⟩ := subtree_iff.mp ho
  -- the three ways to compare two loaded nodes
  have hcompare : ∀ fuel, compareNodes p leaves (unaligned fuel) (enqueue fuel) base other =
      if b.leaf && o.leaf then leaves b o >>= fun ds => .ok ([], ds)
      else if !b.leaf && !o.leaf && b.level = o.level then enqueue fuel b o
      else unaligned fuel b o >>= fun ds => .ok ([], ds) := by
    intro fuel
    simp only [compareNodes, if_neg hcid, hbload, hoload, ok_bind, pure_eq]
  simp only [hcompare, hb.leaf_eq, ho.leaf_eq, hb.level_eq, ho.level_eq]
  have hwhole := hunaligned b o hb ho
  rcases l with _ | l
  · rcases m with _ | m
    · exact ⟨[], _, [], .nil, append_nil _, .of_forall fun fuel => by
        simp [hleaves b o hb ho]⟩
    · exact ⟨[], _, [], .nil, append_nil _, hwhole.mono fun fuel h => by simp [h]⟩
  · by_cases hlm : l + 1 = m
    · subst hlm
      obtain ⟨frames, out, ds, hframes, hd, hstep⟩ := henqueue l b o hb ho
      exact ⟨frames, out, ds, hframes.mono fun _ _ => Means.mono (Nat.lt_succ_iff.mp hl), hd,
        hstep.mono fun fuel h => by simpa using h⟩
    · exact ⟨[], _, [], .nil, append_nil _, hwhole.mono fun fuel h => by simp [hlm, h]⟩

/-- A frame emits what it stands for when steps unfold frames. -/
theorem eval {step : Nat → F → Result (List F × List Diff)}
    (hcompare : ∀ {n l m base other bs os spanEnd}, l < n + 1 → Subtree p l base bs →
      Subtree p m other os → Bounded spanEnd bs → Bounded spanEnd os →
      f.Unfolds p n (step · (f.compare base other spanEnd)) (f.select (diff bs os)))
    (hsubtree : ∀ {n l cid es spanEnd} kind, l < n + 1 → Subtree p l cid es → Bounded spanEnd es →
      f.Unfolds p n (step · (f.subtree kind cid spanEnd)) (f.select (es.map kind.diff))) :
    ∀ {n : Nat} frame d, f.Means p n frame d → StackLoop.Eval step [frame] d := by
  intro n
  induction n with
  | zero =>
    intro frame d h
    cases h with
    | compare hl => exact absurd hl (Nat.not_lt_zero _)
    | subtree _ hl => exact absurd hl (Nat.not_lt_zero _)
  | succ n ih =>
    intro frame d h
    have hunfolds : f.Unfolds p n (step · frame) d := by
      cases h with
      | compare hl _ hb ho hbs hos => exact hcompare hl hb ho hbs hos
      | subtree kind hl h hes => exact hsubtree kind hl h hes
    obtain ⟨frames, out, ds, hframes, rfl, hstep⟩ := hunfolds
    exact .single hstep (hframes.eval ih)

/-- The stack a traversal starts with. -/
def initial (f : Framing F) (base other : Tree) : List F :=
  match base.root, other.root with
  | some baseCid, some otherCid =>
    if baseCid ≠ otherCid then [f.compare baseCid otherCid none] else []
  | some baseCid, none => [f.subtree .removed baseCid none]
  | none, some otherCid => [f.subtree .added otherCid none]
  | none, none => []

/-- The stack a traversal starts with stands for the whole diff. -/
theorem initial_means {base other : Tree} (hb : Holds p base.root bs) (ho : Holds p other.root os) :
    ∃ n, f.Mean p n (f.initial base other) (f.select (diff bs os)) := by
  rw [initial]
  cases hbr : base.root with
  | none =>
    obtain rfl : bs = [] := by rw [hbr] at hb; exact hb
    rw [diff_nil_left]
    cases hor : other.root with
    | none =>
      obtain rfl : os = [] := by rw [hor] at ho; exact ho
      exact ⟨0, f.select_nil ▸ .nil⟩
    | some cid =>
      rw [hor] at ho
      obtain ⟨m, ho⟩ := ho
      exact ⟨m + 1, .single (.subtree .added (Nat.lt_succ_self m) ho (.none _))⟩
  | some cid =>
    rw [hbr] at hb
    obtain ⟨l, hb⟩ := hb
    cases hor : other.root with
    | none =>
      obtain rfl : os = [] := by rw [hor] at ho; exact ho
      rw [diff_nil_right]
      exact ⟨l + 1, .single (.subtree .removed (Nat.lt_succ_self l) hb (.none _))⟩
    | some cid' =>
      rw [hor] at ho
      obtain ⟨m, ho⟩ := ho
      dsimp only
      split_ifs with hcid
      · exact ⟨max l m + 1, .single (.compare (Nat.lt_succ_of_le (le_max_left l m))
          (Nat.lt_succ_of_le (le_max_right l m)) hb ho (.none _) (.none _))⟩
      · obtain rfl : cid = cid' := not_not.mp hcid
        obtain rfl : bs = os := (hb.unique ho).2
        rw [diff_self, f.select_nil]
        exact ⟨0, .nil⟩

end Framing

theorem diffFraming_of_kids {p : Manager} {n l : Nat} {kids : List Child} (kind : DiffFrameKind)
    (hl : l < n) (h : ∀ c ∈ kids, Subtree p l c.cid c.entries) :
    diffFraming.Mean p n ((kids.map Child.cid).map kind.frame)
      ((Child.all kids).map kind.diff) := by
  induction kids with
  | nil => exact .nil
  | cons c kids ih =>
    rw [Child.all_cons, map_append]
    exact .cons (.subtree kind hl (h c mem_cons_self) (.none _))
      (ih fun d hd => h d (.tail _ hd))

/-! ### Aligning the children of two nodes -/

section Align

variable {p : Manager} {l : Nat} {spanEnd : Option Bytes} {cb co : Child} {kb ko : List Child}

def Child.spans : List Child → Option Bytes → List ChildSpan
  | [], _ => []
  | c :: kids, spanEnd =>
    ⟨firstKey c.entries, (kids.head?.map fun d => firstKey d.entries).or spanEnd, c.cid.bytes⟩ ::
      Child.spans kids spanEnd

open Child (spans)

theorem Node.IsInternal.childSpans {n : Node} {level : Nat} {kids : List Child}
    (h : n.IsInternal level kids) (spanEnd : Option Bytes) :
    n.childSpans spanEnd = spans kids spanEnd := by
  rw [Node.childSpans, h.keys, h.vals]
  clear h
  induction kids with
  | nil => rfl
  | cons c kids ih => simp [childSpansOf, spans, ih]

/-- Children of height `l`, in key order, before the end of a span. -/
structure Kids (p : Manager) (l : Nat) (spanEnd : Option Bytes) (kids : List Child) : Prop where
  subtree : ∀ c ∈ kids, Subtree p l c.cid c.entries
  sorted : Sorted (Child.all kids)
  bounded : Bounded spanEnd (Child.all kids)

namespace Kids

variable {c : Child} {kids : List Child}

theorem tail (h : Kids p l spanEnd (c :: kids)) : Kids p l spanEnd kids where
  subtree d hd := h.subtree d (.tail _ hd)
  sorted := (sorted_append.mp h.sorted).2.1
  bounded stop hstop e he := h.bounded stop hstop e (mem_append_right _ he)

/-- The first span ends after the first child's entries. -/
theorem head_bounded (h : Kids p l spanEnd (c :: kids)) :
    Bounded ((kids.head?.map fun d => firstKey d.entries).or spanEnd) c.entries := by
  intro stop hstop e he
  cases kids with
  | nil => exact h.bounded stop (by simpa using hstop) e (mem_append_left _ he)
  | cons d kids =>
    obtain rfl : firstKey d.entries = stop := by simpa using hstop
    obtain ⟨e', he', hkey⟩ := exists_mem_firstKey (h.subtree d (by simp)).nonempty
    rw [← hkey]
    exact (sorted_append.mp h.sorted).2.2 e he e' (mem_append_left _ he')

/-- A first span that ends at or before `start` ends all of it there. -/
theorem firstKey_le (h : Kids p l spanEnd (c :: kids)) :
    ∀ e ∈ Child.all (c :: kids), firstKey c.entries ≤ e.1 := by
  intro e he
  rw [← firstKey_append (h.subtree c mem_cons_self).nonempty (Child.all kids)]
  exact h.sorted.firstKey_le he

end Kids

theorem childFrames_spans (kind : DiffFrameKind) (kids : List Child) (spanEnd : Option Bytes) :
    childFrames kind (spans kids spanEnd) = .ok ((kids.map Child.cid).map kind.frame) := by
  induction kids with
  | nil => rfl
  | cons c kids ih => simp [spans, childFrames, ih]

/-- `a` ends at or before `start`, and the rest of the other side starts there. -/
theorem lt_of_endsBeforeOrAt {stop : Option Bytes} {start : Bytes} {xs ys : List Entry}
    (h : endsBeforeOrAt stop start = true) (hx : Bounded stop xs) (hy : ∀ e ∈ ys, start ≤ e.1) :
    ∀ x ∈ xs, ∀ y ∈ ys, x.1 < y.1 := by
  intro x hxs y hys
  cases stop with
  | none => simp [endsBeforeOrAt] at h
  | some stop =>
    have hle : stop ≤ start := by simpa [endsBeforeOrAt] using h
    exact (hx stop rfl x hxs).trans_le (hle.trans (hy y hys))

/-- The span of a first child and the spans of the others: one lemma per way two first
spans can lie. Here both spans are the same. -/
theorem Kids.diff_same (hb : Kids p l spanEnd (cb :: kb)) (ho : Kids p l spanEnd (co :: ko))
    (hstop : (kb.head?.map fun d => firstKey d.entries).or spanEnd =
      (ko.head?.map fun d => firstKey d.entries).or spanEnd) :
    diff (Child.all (cb :: kb)) (Child.all (co :: ko)) =
      diff cb.entries co.entries ++ diff (Child.all kb) (Child.all ko) := by
  refine diff_append hb.sorted ho.sorted (fun x hx y hy => ?_) fun x hx y hy => ?_
  · cases ko with
    | nil => simp at hy
    | cons d ko =>
      exact (hb.head_bounded _ (by rw [hstop]; simp) x hx).trans_le (ho.tail.firstKey_le y hy)
  · cases kb with
    | nil => simp at hy
    | cons d kb =>
      exact (ho.head_bounded _ (by rw [← hstop]; simp) x hx).trans_le
        (hb.tail.firstKey_le y hy)

/-- The base's first span ends where the other's children start, or before. -/
theorem Kids.diff_removed (hb : Kids p l spanEnd (cb :: kb)) (ho : Kids p l spanEnd (co :: ko))
    (hstop : endsBeforeOrAt ((kb.head?.map fun d => firstKey d.entries).or spanEnd)
      (firstKey co.entries) = true) :
    diff (Child.all (cb :: kb)) (Child.all (co :: ko)) =
      cb.entries.map DiffFrameKind.removed.diff ++
        diff (Child.all kb) (Child.all (co :: ko)) := by
  rw [← diff_nil_right, ← nil_append (Child.all (co :: ko))]
  exact diff_append hb.sorted ho.sorted
    (lt_of_endsBeforeOrAt hstop hb.head_bounded ho.firstKey_le) (by simp)

/-- The other's first span ends where the base's children start, or before. -/
theorem Kids.diff_added (hb : Kids p l spanEnd (cb :: kb)) (ho : Kids p l spanEnd (co :: ko))
    (hstop : endsBeforeOrAt ((ko.head?.map fun d => firstKey d.entries).or spanEnd)
      (firstKey cb.entries) = true) :
    diff (Child.all (cb :: kb)) (Child.all (co :: ko)) =
      co.entries.map DiffFrameKind.added.diff ++
        diff (Child.all (cb :: kb)) (Child.all ko) := by
  rw [← diff_nil_left, ← nil_append (Child.all (cb :: kb))]
  exact diff_append hb.sorted ho.sorted (by simp)
    (lt_of_endsBeforeOrAt hstop ho.head_bounded hb.firstKey_le)

/-- The alignment with the base child `cb` held, given the alignment of the base children
after it. -/
theorem alignStep_spec
    (rest : ∀ {ko : List Child}, Kids p l spanEnd ko →
      AlignSpec (diffFraming.Means p (l + 1)) (diff (Child.all kb) (Child.all ko))
        (alignFrames (spans kb spanEnd) (spans ko spanEnd)))
    (hb : Kids p l spanEnd (cb :: kb)) (ho : Kids p l spanEnd ko) :
    AlignSpec (diffFraming.Means p (l + 1)) (diff (Child.all (cb :: kb)) (Child.all ko))
      (alignFrames (spans (cb :: kb) spanEnd) (spans ko spanEnd)) := by
  have hcb := hb.subtree cb mem_cons_self
  induction ko with
  | nil =>
    have hremoved : alignFrames (spans (cb :: kb) spanEnd) (spans [] spanEnd) =
        .ok (some (((cb :: kb).map Child.cid).map DiffFrameKind.removed.frame)) :=
      congrArg (fun r : Result (List DiffFrame) => r >>= fun frames => .ok (some frames))
        (childFrames_spans .removed (cb :: kb) spanEnd)
    refine ⟨_, hremoved, fun frames hframes => ?_⟩
    obtain rfl := Option.some.inj hframes
    rw [Child.all_nil, diff_nil_right]
    exact diffFraming_of_kids .removed (Nat.lt_succ_self l) hb.subtree
  | cons co ko ih =>
    have hco := ho.subtree co mem_cons_self
    rw [spans, alignFrames, spans, alignStep]
    simp only [childCidFromBytes_bytes, ok_bind, pure_eq]
    split_ifs with hsame hcid hremoved hadded
    · -- equal spans over different subtrees: one comparison
      exact (rest ho.tail).cons (.compare (Nat.lt_succ_self l) (Nat.lt_succ_self l)
          hcb hco hb.head_bounded (hsame.2 ▸ ho.head_bounded)) (hb.diff_same ho hsame.2)
    · -- a shared subtree has no differences
      obtain ⟨r, hr, hmeans⟩ := rest ho.tail
      have hes : cb.entries = co.entries := (hcb.unique (not_not.mp hcid ▸ hco)).2
      refine ⟨r, by rw [hr, ok_bind], fun frames hframes => ?_⟩
      rw [Child.all_cons, Child.all_cons, hes, diff_append_left]
      exact hmeans frames hframes
    · exact (rest ho).cons (.subtree .removed (Nat.lt_succ_self l) hcb (.none _))
        (hb.diff_removed ho hremoved)
    · exact (ih ho.tail).cons (.subtree .added (Nat.lt_succ_self l) hco (.none _))
        (hb.diff_added ho hadded)
    · exact ⟨none, rfl, by simp⟩

theorem alignFrames_spec (hb : Kids p l spanEnd kb) (ho : Kids p l spanEnd ko) :
    AlignSpec (diffFraming.Means p (l + 1)) (diff (Child.all kb) (Child.all ko))
      (alignFrames (spans kb spanEnd) (spans ko spanEnd)) := by
  induction kb generalizing ko with
  | nil =>
    have hadded : alignFrames (spans [] spanEnd) (spans ko spanEnd) =
        .ok (some ((ko.map Child.cid).map DiffFrameKind.added.frame)) := by
      rw [spans, alignFrames, childFrames_spans, ok_bind, pure_eq]
    refine ⟨_, hadded, fun frames hframes => ?_⟩
    obtain rfl := Option.some.inj hframes
    rw [Child.all_nil, diff_nil_left]
    exact diffFraming_of_kids .added (Nat.lt_succ_self l) ho.subtree
  | cons cb kb ih => exact alignStep_spec (fun ho => ih hb.tail ho) hb ho

end Align

/-! ### The traversal -/

section Traversal

variable {p : Manager} {l m n : Nat} {bs os es : List Entry}

theorem processSubtree_unfolds {cid : Cid} (kind : DiffFrameKind) (hl : l < n + 1)
    (h : Subtree p l cid es) :
    diffFraming.Unfolds p n (fun _ => p.processSubtree kind cid) (es.map kind.diff) := by
  cases l with
  | zero =>
    obtain ⟨node, hn, hleaf⟩ := h
    refine ⟨[], es.map kind.diff, [], .nil, by simp, .of_forall fun _ => ?_⟩
    simp [Manager.processSubtree, hn, hleaf.leaf, hleaf.ensureValueCount, hleaf.entries_eq]
  | succ l =>
    obtain ⟨node, kids, hn, hint, rfl, hkids⟩ := h
    have hframes := diffFraming_of_kids kind (Nat.lt_of_succ_lt_succ hl) hkids
    have hprefetch : p.prefetchFrames _ = .ok () := hframes.prefetch
    refine ⟨_, [], _, hframes, rfl, .of_forall fun _ => ?_⟩
    simp only [Manager.processSubtree, hn, ok_bind, hint.leaf, Bool.false_eq_true,
      if_false, hint.childCids, hprefetch, pure_eq]

theorem processDiffCompare_unfolds {base other : Cid} {spanEnd : Option Bytes} (hl : l < n + 1)
    (hb : Subtree p l base bs) (ho : Subtree p m other os) (hbs : Bounded spanEnd bs)
    (hos : Bounded spanEnd os) :
    diffFraming.Unfolds p n (fun fuel => p.processDiffCompare fuel base other spanEnd)
      (diff bs os) := by
  have hstep : ∀ fuel, p.processDiffCompare fuel base other spanEnd =
      Framing.compareNodes p diffLeafNodes (p.diffUnaligned fuel)
        (p.enqueueInternalDiff fuel · · spanEnd) base other := fun _ => rfl
  simp only [hstep]
  refine Framing.compareNodes_unfolds hl hb ho (fun b o hb ho => ?_)
    (fun b o hb ho => diffUnaligned_enough hb ho) fun l b o hb ho => ?_
  · simp [diffLeafNodes, hb.ensureValueCount, ho.ensureValueCount, hb.entries_eq, ho.entries_eq,
      diffEntrySlices, diffFraming]
  · have hwhole := diffUnaligned_enough hb ho
    obtain ⟨kb, hib, rfl, hkb⟩ := hb
    obtain ⟨ko, hio, rfl, hko⟩ := ho
    have haligned := alignFrames_spec ⟨hkb, hib.sorted, hbs⟩ ⟨hko, hio.sorted, hos⟩
    rw [← hib.childSpans, ← hio.childSpans] at haligned
    refine Framing.AlignSpec.unfolds haligned (fun frames hr hprefetch fuel => ?_) fun hr =>
      hwhole.mono fun fuel h => ?_
    · have hprefetch : p.prefetchFrames frames = .ok () := hprefetch
      simp [Manager.enqueueInternalDiff, hib.ensureValueCount, hio.ensureValueCount, hr, hprefetch]
    · simp [Manager.enqueueInternalDiff, hib.ensureValueCount, hio.ensureValueCount, hr, h,
        diffFraming]

/-- A frame emits what it stands for. -/
theorem processFrame_eval :
    ∀ frame d, diffFraming.Means p n frame d → StackLoop.Eval p.processFrame [frame] d := by
  refine Framing.eval processDiffCompare_unfolds fun kind hl h _ => ?_
  cases kind <;> exact processSubtree_unfolds _ hl h

/-- The eager diff of two trees is the merge of their contents. -/
theorem computeDiff_eq {base other : Tree} (hb : Holds p base.root bs)
    (ho : Holds p other.root os) :
    Enough fun fuel => p.computeDiff fuel base other = .ok (diff bs os) := by
  obtain ⟨n, hframes⟩ := diffFraming.initial_means hb ho
  exact (hframes.eval processFrame_eval).enough .outOfFuel

end Traversal

end Prolly

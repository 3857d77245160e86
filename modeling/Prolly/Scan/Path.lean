import Prolly.Scan.Model
import Prolly.Proof.Range

/-!
# Prolly.Scan.Path

The session scans visit the entries of a range in order, forward and backward.

A path is a zipper: `Path p level frames before after` says that the subtree at the
end of the path lies, in key order, between the entries `before` and `after`. Moving
to the next leaf takes its entries off `after`, moving to the previous one takes them
off `before`. The way down and the move to a sibling are proved here once; the
iterators of `Prolly.Scan.Iter` make the same moves.
-/

namespace Prolly

open SortedAssoc
open List
open Manager (firstSide loadArc_eq_ok descendSide lastSide childIndex)

/-! ### Paths -/

/-- The frames lead from a subtree of height `level` to the root, with the entries
`before` to its left and `after` to its right. -/
inductive Path (p : Manager) : Nat → List PathFrame → List Entry → List Entry → Prop
  | nil {level : Nat} : Path p level [] [] []
  | cons {level : Nat} {n : Node} {pre post : List Child} {c : Child} {frames : List PathFrame}
      {before after : List Entry} (hint : n.IsInternal (level + 1) (pre ++ c :: post))
      (hkids : ∀ d ∈ pre ++ c :: post, Subtree p level d.cid d.entries)
      (rest : Path p (level + 1) frames before after) :
      Path p level (⟨n, pre.length⟩ :: frames) (before ++ Child.all pre) (Child.all post ++ after)

section Facts

variable {n : Node} {level : Nat} {kids pre post : List Child} {c : Child} {es : List Entry}

theorem Node.IsInternal.len (h : n.IsInternal level kids) : n.len = kids.length := by
  simp [Node.len, h.keys]

theorem Node.IsInternal.isEmpty (h : n.IsInternal level kids) : n.isEmpty = false := by
  simp [Node.isEmpty, h.keys, h.nonempty]

theorem Node.IsLeaf.len (h : n.IsLeaf es) : n.len = es.length := by
  simp [Node.len, h.keys]

theorem Node.IsLeaf.isEmpty (h : n.IsLeaf es) : n.isEmpty = false := by
  simp [Node.isEmpty, h.keys, h.nonempty]

theorem Node.IsInternal.childStarts (h : n.IsInternal level (pre ++ c :: post))
    (stop : Option Bytes) : n.childStartsAtOrAfterEnd stop pre.length =
      .ok (endsBeforeOrAt stop (firstKey c.entries)) := by
  cases stop with
  | none => rfl
  | some stop => simp [Node.childStartsAtOrAfterEnd, h.keys, endsBeforeOrAt]

end Facts

namespace Path

variable {p : Manager} {level fuel : Nat} {frames : List PathFrame} {before after : List Entry}
  {cid : Cid} {es : List Entry}

section Down

variable (h : Path p level frames before after) (hsub : Subtree p level cid es)
  (hfuel : level < fuel)
include h hsub hfuel

/-- Down to the first leaf of a subtree, checked or unchecked. -/
theorem leftmost :
    ∃ (leaf : Node) (les : List Entry) (frames' : List PathFrame) (after' : List Entry),
      p.descendSide firstSide fuel frames cid = .ok (⟨leaf, 0⟩ :: frames') ∧
      Cursor.descendToLeftmostLeaf p fuel frames cid = .ok ⟨0, leaf, frames'⟩ ∧
      leaf.IsLeaf les ∧ Path p 0 frames' before after' ∧ es ++ after = les ++ after' ∧
      frames'.length = level + frames.length := by
  obtain _ | fuel := fuel
  · omega
  induction level generalizing frames after cid es fuel with
  | zero =>
    obtain ⟨n, hn, hleaf⟩ := hsub
    have hstore := (loadArc_eq_ok.mp hn).1
    refine ⟨n, es, frames, after, ?_, ?_, hleaf, h, rfl, by simp⟩
    · simp [descendSide, hn, firstSide, hleaf.leaf]
    · simp [Cursor.descendToLeftmostLeaf, Cursor.descendAt, Cursor.loadNode, hstore, hleaf.leaf]
  | succ level ih =>
    obtain ⟨n, kids, hn, hint, rfl, hkids⟩ := hsub
    obtain ⟨c, post, rfl⟩ := exists_cons_of_ne_nil hint.nonempty
    obtain _ | fuel := fuel
    · omega
    have hstore := (loadArc_eq_ok.mp hn).1
    have hint' : n.IsInternal (level + 1) ([] ++ c :: post) := hint
    have hcid : n.childCid 0 = .ok c.cid := hint'.childCid
    have hpath : Path p level (⟨n, 0⟩ :: frames) (before ++ Child.all [])
        (Child.all post ++ after) := .cons hint' hkids h
    rw [Child.all_nil, append_nil] at hpath
    obtain ⟨leaf, les, frames', after', hdown, hcursor, hleaf, hpath', hes, hlen⟩ :=
      ih hpath (hkids c mem_cons_self) fuel (by omega)
    refine ⟨leaf, les, frames', after', ?_, ?_, hleaf, hpath', ?_, ?_⟩
    · rw [descendSide, hn]
      simp [firstSide, hint.isEmpty, hint.leaf, hcid, hdown]
    · rw [Cursor.descendToLeftmostLeaf] at hcursor ⊢
      rw [Cursor.descendAt, Cursor.loadNode, hstore]
      simp [hint.leaf, hcid, hcursor]
    · simpa using hes
    · simp only [length_cons] at hlen
      omega

/-- Down to the last leaf of a subtree. -/
theorem rightmost :
    ∃ (leaf : Node) (les : List Entry) (frames' : List PathFrame) (before' : List Entry),
      p.descendSide lastSide fuel frames cid = .ok (⟨leaf, les.length - 1⟩ :: frames') ∧
      leaf.IsLeaf les ∧ Path p 0 frames' before' after ∧ before ++ es = before' ++ les ∧
      frames'.length = level + frames.length := by
  obtain _ | fuel := fuel
  · omega
  induction level generalizing frames before cid es fuel with
  | zero =>
    obtain ⟨n, hn, hleaf⟩ := hsub
    refine ⟨n, es, frames, before, ?_, hleaf, h, rfl, by simp⟩
    simp [descendSide, hn, lastSide, hleaf.leaf, hleaf.isEmpty, hleaf.len]
  | succ level ih =>
    obtain ⟨n, kids, hn, hint, rfl, hkids⟩ := hsub
    obtain ⟨pre, c, rfl⟩ : ∃ pre c, kids = pre ++ [c] :=
      ⟨_, _, (dropLast_append_getLast hint.nonempty).symm⟩
    obtain _ | fuel := fuel
    · omega
    have hlast : n.len - 1 = pre.length := by simp [hint.len]
    have hpath : Path p level (⟨n, pre.length⟩ :: frames) (before ++ Child.all pre)
        (Child.all [] ++ after) := .cons hint hkids h
    obtain ⟨leaf, les, frames', before', hdown, hleaf, hpath', hes, hlen⟩ :=
      ih hpath (hkids c (by simp)) fuel (by omega)
    refine ⟨leaf, les, frames', before', ?_, hleaf, hpath', ?_, ?_⟩
    · rw [descendSide, hn]
      simp [lastSide, hint.isEmpty, hint.leaf, hint.childCid, hlast, hdown]
    · simpa using hes
    · simp only [length_cons] at hlen
      omega

/-- Down to the leaf a key belongs to: everything to its left is below the key, everything
to its right above it. The three implementations find the same path. -/
theorem seek (key : Bytes) (hbefore : ∀ e ∈ before, e.1 < key)
    (hafter : ∀ e ∈ after, key < e.1) :
    ∃ (leaf : Node) (les : List Entry) (frames' : List PathFrame) (before' after' : List Entry),
      p.findReadPathLoop key fuel frames cid =
        .ok (⟨leaf, childIndex leaf key⟩ :: frames') ∧
      (∀ strictStart, p.seekForwardLoop key strictStart fuel frames cid =
        .ok (⟨leaf, partitionPoint (fun k => if strictStart then k ≤ key else k < key)
          leaf.keys⟩ :: frames')) ∧
      Cursor.navigateToKey p key fuel frames cid =
        .ok ⟨childIndex leaf key, leaf, frames'⟩ ∧
      leaf.IsLeaf les ∧ Path p 0 frames' before' after' ∧
      before ++ es ++ after = before' ++ les ++ after' ∧ (∀ e ∈ before', e.1 < key) ∧
      (∀ e ∈ after', key < e.1) ∧ frames'.length = level + frames.length := by
  obtain _ | fuel := fuel
  · omega
  induction level generalizing frames before after cid es fuel with
  | zero =>
    obtain ⟨n, hn, hleaf⟩ := hsub
    have hstore := (loadArc_eq_ok.mp hn).1
    refine ⟨n, es, frames, before, after, ?_, fun strictStart => ?_, ?_, hleaf, h, rfl, hbefore,
      hafter, by simp⟩
    · simp [Manager.findReadPathLoop, hn, hleaf.isEmpty, hleaf.leaf]
    · simp [Manager.seekForwardLoop, hn, hleaf.leaf]
    · simp [Cursor.navigateToKey, Cursor.descendAt, Cursor.loadNode, hstore, hleaf.leaf]
  | succ level ih =>
    obtain ⟨n, kids, hn, hint, rfl, hkids⟩ := hsub
    obtain _ | fuel := fuel
    · omega
    have hstore := (loadArc_eq_ok.mp hn).1
    have hne : ∀ c ∈ kids, c.entries ≠ [] := fun c hc => (hkids c hc).nonempty
    obtain ⟨pre, c, post, rfl, hindex, hpre, hpost⟩ := hint.focus hne key
    have hkeys : n.keys.Pairwise (· < ·) := by
      rw [hint.keys, pairwise_map]
      exact Child.firstKeys_sorted hint.sorted hne
    have hchild : childIndex n key = pre.length :=
      (Manager.childIndex_eq_childFor hkeys key).trans hindex
    obtain ⟨leaf, les, frames', before', after', hread, hseek, hcursor, hleaf, hpath, hes, hb, ha,
        hlen⟩ := ih (.cons hint hkids h) (hkids c (by simp))
      (fun e he => (mem_append.mp he).elim (hbefore e) (hpre e))
      (fun e he => (mem_append.mp he).elim (hpost e) (hafter e)) fuel (by omega)
    refine ⟨leaf, les, frames', before', after', ?_, fun strictStart => ?_, ?_, hleaf, hpath, ?_,
      hb, ha, ?_⟩
    · rw [Manager.findReadPathLoop, hn]
      simp [hint.isEmpty, hint.leaf, hchild, hint.childCid, hread]
    · rw [Manager.seekForwardLoop, hn]
      simp [hint.isEmpty, hint.leaf, hindex, hint.childCid, hseek]
    · rw [Cursor.navigateToKey] at hcursor ⊢
      rw [Cursor.descendAt, Cursor.loadNode, hstore]
      simp [hint.leaf, hchild, hint.childCid, hcursor]
    · rw [← hes]
      simp [append_assoc]
    · simp only [length_cons] at hlen
      omega

end Down

/-- One move of the forward scan: to the next leaf, whose entries come next. -/
theorem advanceForward (h : Path p level frames before after)
    (hfuel : level + frames.length < fuel) :
    (after = [] ∧ p.advanceForward fuel frames = .ok none) ∨
    ∃ (leaf : Node) (les : List Entry) (frames' : List PathFrame) (before' after' : List Entry),
      p.advanceForward fuel frames = .ok (some (⟨leaf, 0⟩ :: frames')) ∧ leaf.IsLeaf les ∧
      Path p 0 frames' before' after' ∧ after = les ++ after' ∧
      frames'.length = level + frames.length := by
  induction h with
  | nil => exact .inl ⟨rfl, rfl⟩
  | @cons level n pre post c frames before after hint hkids hrest ih =>
    rw [length_cons, ← Nat.add_assoc, Nat.add_right_comm] at hfuel ⊢
    cases post with
    | nil =>
      -- the last child of its parent: one level up
      rw [Child.all_nil, nil_append, Manager.advanceForward]
      simpa [hint.leaf, hint.isEmpty, hint.len] using ih hfuel
    | cons d post =>
      have hint' : n.IsInternal (level + 1) ((pre ++ [c]) ++ d :: post) := by simpa using hint
      have hpath := Path.cons hint' (by simpa using hkids) hrest
      have hcid := hint'.childCid
      rw [length_append, length_singleton] at hpath hcid
      obtain ⟨leaf, les, frames', after', hdown, -, hleaf, hpath', hes, hlen⟩ :=
        hpath.leftmost (hkids d (by simp)) (by omega : level < fuel)
      have hmore : ¬ n.len ≤ pre.length + 1 := by simp [hint.len]
      refine .inr ⟨leaf, les, frames', _, after', ?_, hleaf, hpath', by simpa using hes, ?_⟩
      · simp [Manager.advanceForward, hint.leaf, hint.isEmpty, hmore, hcid, hdown]
      · rw [hlen, length_cons]
        omega

/-- One move of the reverse scan: to the previous leaf, at its last entry. -/
theorem advanceReverse (h : Path p level frames before after)
    (hfuel : level + frames.length < fuel) :
    (before = [] ∧ p.advanceReverse fuel frames = .ok none) ∨
    ∃ (leaf : Node) (les : List Entry) (frames' : List PathFrame) (before' after' : List Entry),
      p.advanceReverse fuel frames = .ok (some (⟨leaf, les.length - 1⟩ :: frames')) ∧
      leaf.IsLeaf les ∧ Path p 0 frames' before' after' ∧ before = before' ++ les ∧
      frames'.length = level + frames.length := by
  induction h with
  | nil => exact .inl ⟨rfl, rfl⟩
  | @cons level n pre post c frames before after hint hkids hrest ih =>
    rw [length_cons, ← Nat.add_assoc, Nat.add_right_comm] at hfuel ⊢
    rcases eq_nil_or_concat pre with rfl | ⟨pre, d, rfl⟩
    · -- the first child of its parent: one level up
      rw [Child.all_nil, append_nil, Manager.advanceReverse]
      simpa [hint.leaf, hint.isEmpty] using ih hfuel
    · rw [concat_eq_append, append_assoc] at hint hkids
      obtain ⟨leaf, les, frames', before', hdown, hleaf, hpath, hes, hlen⟩ :=
        (Path.cons hint hkids hrest).rightmost (hkids d (by simp)) (by omega : level < fuel)
      refine .inr ⟨leaf, les, frames', before', _, ?_, hleaf, hpath, by simpa using hes, ?_⟩
      · simp [Manager.advanceReverse, hint.leaf, hint.isEmpty, hint.childCid, hdown]
      · rw [hlen, length_cons]
        omega

end Path

/-! ### Visiting a list -/

section Visit

variable {σ β : Type}

/-- The visitor called on the entries of a list in order, until it breaks. -/
def visitAll (visit : Visitor σ β) : σ → Nat → List Entry → σ × ScanOutcome β
  | s, visited, [] => (s, ⟨visited, none⟩)
  | s, visited, e :: es =>
    match visit s e with
    | (s, some value) => (s, ⟨visited + 1, some value⟩)
    | (s, none) => visitAll visit s (visited + 1) es

variable {past : Bytes → Bool} {visit : Visitor σ β}

/-- One leaf of a scan. -/
theorem scanEntries_spec (s : σ) (visited : Nat) (es later : List Entry) :
    visitAll visit s visited ((es ++ later).takeWhile fun e => !past e.1) =
      match scanEntries past visit s visited es with
      | .done s outcome => (s, outcome)
      | .more s visited => visitAll visit s visited (later.takeWhile fun e => !past e.1) := by
  induction es generalizing s visited with
  | nil => rfl
  | cons e es ih =>
    rw [scanEntries, cons_append]
    by_cases hpast : past e.1 = true
    · simp [hpast, visitAll]
    · rw [if_neg hpast, takeWhile_cons_of_pos (by simpa using hpast), visitAll]
      obtain ⟨s', flow⟩ := visit s e
      cases flow with
      | some value => rfl
      | none => exact ih s' (visited + 1)

/-- The leaves a scan walks through, and their entries in the order it visits them. -/
inductive Walk (entriesOf : PathFrame → List Entry)
    (advance : List PathFrame → Result (Option (List PathFrame))) :
    Nat → List PathFrame → List Entry → Prop
  | last {frame : PathFrame} {stack : List PathFrame} :
      frame.node.leaf = true → advance stack = .ok none →
      Walk entriesOf advance 1 (frame :: stack) (entriesOf frame)
  | step {n : Nat} {frame : PathFrame} {stack stack' : List PathFrame} {later : List Entry} :
      frame.node.leaf = true → advance stack = .ok (some stack') →
      Walk entriesOf advance n stack' later →
      Walk entriesOf advance (n + 1) (frame :: stack) (entriesOf frame ++ later)

/-- A scan over a walk calls the visitor on the entries before the bound. -/
theorem Walk.scanFrames {entriesOf : PathFrame → List Entry}
    {advance : List PathFrame → Result (Option (List PathFrame))} {n : Nat}
    {stack : List PathFrame} {es : List Entry} (h : Walk entriesOf advance n stack es) {fuel : Nat}
    (hfuel : n ≤ fuel) (s : σ) (visited : Nat) :
    scanFrames past visit entriesOf advance fuel stack s visited =
      .ok (visitAll visit s visited (es.takeWhile fun e => !past e.1)) := by
  induction h generalizing fuel s visited with
  | last hleaf hadvance =>
    rename_i frame stack
    obtain _ | fuel := fuel
    · omega
    rw [Prolly.scanFrames, if_neg (by simp [hleaf]), ← append_nil (entriesOf frame),
      scanEntries_spec, append_nil]
    cases scanEntries past visit s visited (entriesOf frame) with
    | done s outcome => rfl
    | more s visited => simp [hadvance, visitAll]
  | step hleaf hadvance _ ih =>
    rename_i n frame stack stack' later _
    obtain _ | fuel := fuel
    · omega
    rw [Prolly.scanFrames, if_neg (by simp [hleaf]), scanEntries_spec]
    cases scanEntries past visit s visited (entriesOf frame) with
    | done s outcome => rfl
    | more s visited =>
      simp only [hadvance, ok_bind]
      exact ih (by omega) s visited

end Visit

/-! ### Forward and reverse walks -/

section Walks

variable {p : Manager} {frames : List PathFrame} {before after les : List Entry} {leaf : Node}
  {fuel : Nat}

theorem Path.walkForward (h : Path p 0 frames before after) (hleaf : leaf.IsLeaf les) (i : Nat)
    (hfuel : frames.length < fuel) :
    ∃ n ≤ after.length + 1, Walk (fun f => f.node.entries.drop f.index) (p.advanceForward fuel) n
      (⟨leaf, i⟩ :: frames) (les.drop i ++ after) := by
  -- the induction is on what lies ahead: every further leaf holds some of it
  induction hn : after.length using Nat.strong_induction_on
    generalizing frames before after les leaf i with
  | _ k ih =>
    subst hn
    have hentries : leaf.entries.drop i = les.drop i := by rw [hleaf.entries_eq]
    rw [← hentries]
    rcases h.advanceForward (by omega : 0 + frames.length < fuel) with ⟨rfl, hnone⟩ |
      ⟨leaf', les', frames', before', after', hsome, hleaf', hpath, rfl, hlen⟩
    · rw [append_nil]
      exact ⟨1, by omega, .last hleaf.leaf hnone⟩
    · have hpos := length_pos_of_ne_nil hleaf'.nonempty
      obtain ⟨n, hn, hwalk⟩ := ih after'.length (by simp; omega) hpath hleaf' 0 (by omega) rfl
      rw [drop_zero] at hwalk
      exact ⟨n + 1, by simp; omega, .step hleaf.leaf hsome hwalk⟩

theorem Path.walkReverse (h : Path p 0 frames before after) (hleaf : leaf.IsLeaf les) (i : Nat)
    (hfuel : frames.length < fuel) :
    ∃ n ≤ before.length + 1, Walk (fun f => (f.node.entries.take (f.index + 1)).reverse)
      (p.advanceReverse fuel) n (⟨leaf, i⟩ :: frames) (before ++ les.take (i + 1)).reverse := by
  induction hn : before.length using Nat.strong_induction_on
    generalizing frames before after les leaf i with
  | _ k ih =>
    subst hn
    have hentries : leaf.entries.take (i + 1) = les.take (i + 1) := by rw [hleaf.entries_eq]
    rw [reverse_append, ← hentries]
    rcases h.advanceReverse (by omega : 0 + frames.length < fuel) with ⟨rfl, hnone⟩ |
      ⟨leaf', les', frames', before', after', hsome, hleaf', hpath, rfl, hlen⟩
    · rw [reverse_nil, append_nil]
      exact ⟨1, by omega, .last hleaf.leaf hnone⟩
    · have hpos := length_pos_of_ne_nil hleaf'.nonempty
      obtain ⟨n, hn, hwalk⟩ :=
        ih before'.length (by simp; omega) hpath hleaf' (les'.length - 1) (by omega) rfl
      rw [Nat.sub_add_cancel hpos, take_length] at hwalk
      exact ⟨n + 1, by simp; omega, .step hleaf.leaf hsome hwalk⟩

end Walks

/-! ### Scanning a range -/

/-- The key is not before the start of a range; with `strictStart`, it is past it. -/
def startsAt (start : Bytes) (strictStart : Bool) (key : Bytes) : Bool :=
  !if strictStart then key ≤ start else key < start

/-- The entries of a range. -/
def entriesIn (start : Bytes) (strictStart : Bool) (stop : Option Bytes) (es : List Entry) :
    List Entry :=
  es.filter fun e => startsAt start strictStart e.1 && !endsBeforeOrAt stop e.1

theorem entriesIn_eq_restrict (start : Bytes) (stop : Option Bytes) (es : List Entry) :
    entriesIn start false stop es = KeyRange.restrict ⟨start, stop⟩ es := by
  refine filter_congr fun e _ => ?_
  rw [Bool.eq_iff_iff, KeyRange.contains_iff]
  cases stop <;> simp [startsAt, endsBeforeOrAt]

theorem entriesIn_eq_page (after : Bytes) (stop : Option Bytes) (es : List Entry) :
    entriesIn after true stop es = PageRange.restrict ⟨some after, stop⟩ es := by
  refine filter_congr fun e _ => ?_
  rw [Bool.eq_iff_iff, PageRange.contains_iff]
  cases stop <;> simp [startsAt, endsBeforeOrAt]

variable {stop : Option Bytes} {es before rest : List Entry} {start : Bytes} {strictStart : Bool}

/-- Once a key is past the end, so are the later ones. -/
theorem endsBeforeOrAt_mono {a b : Bytes} (hab : a ≤ b) (h : endsBeforeOrAt stop a = true) :
    endsBeforeOrAt stop b = true := by
  cases stop with
  | none => exact h
  | some stop =>
    have hle : stop ≤ a := by simpa [endsBeforeOrAt] using h
    simpa [endsBeforeOrAt] using hle.trans hab

theorem takeWhile_before_end (hs : Sorted es) :
    es.takeWhile (fun e => !endsBeforeOrAt stop e.1) =
      es.filter fun e => !endsBeforeOrAt stop e.1 := by
  refine takeWhile_eq_filter (hs.imp fun {a b} hab hb => ?_)
  rw [Bool.not_eq_true'] at hb ⊢
  exact Bool.eq_false_iff.mpr fun ha => Bool.eq_false_iff.mp hb (endsBeforeOrAt_mono hab.le ha)

/-- What lies before the start of a range is not visited. -/
theorem entriesIn_append (hbefore : ∀ e ∈ before, startsAt start strictStart e.1 = false) :
    entriesIn start strictStart stop (before ++ rest) = entriesIn start strictStart stop rest := by
  rw [entriesIn, filter_append, filter_eq_nil_iff.mpr fun e he => by simp [hbefore e he]]
  rfl

/-- A list cut at the start of a range: what is visited is taken from the second part. -/
theorem entriesIn_of_split (hs : Sorted rest)
    (hbefore : ∀ e ∈ before, startsAt start strictStart e.1 = false)
    (hrest : ∀ e ∈ rest, startsAt start strictStart e.1 = true) :
    entriesIn start strictStart stop (before ++ rest) =
      rest.takeWhile fun e => !endsBeforeOrAt stop e.1 := by
  rw [entriesIn_append hbefore, takeWhile_before_end hs]
  exact filter_congr fun e he => by simp [hrest e he]

/-- A range that ends where it starts is empty. -/
theorem entriesIn_eq_nil (strictStart : Bool) (h : endsBeforeOrAt stop start = true)
    (es : List Entry) : entriesIn start strictStart stop es = [] := by
  refine filter_eq_nil_iff.mpr fun e _ hc => ?_
  rw [Bool.and_eq_true, Bool.not_eq_true', startsAt, Bool.not_eq_true'] at hc
  have hle : start ≤ e.1 := by
    cases strictStart with
    | false => simpa using hc.1
    | true => exact (by simpa using hc.1 : start < e.1).le
  exact Bool.eq_false_iff.mp hc.2 (endsBeforeOrAt_mono hle h)

/-- The part of a leaf from the start of a range on. -/
theorem Node.IsLeaf.startPart {n : Node} (h : n.IsLeaf es) (start : Bytes) (strictStart : Bool) :
    (∀ e ∈ es.take (partitionPoint (fun k => !startsAt start strictStart k) n.keys),
      startsAt start strictStart e.1 = false) ∧
    ∀ e ∈ es.drop (partitionPoint (fun k => !startsAt start strictStart k) n.keys),
      startsAt start strictStart e.1 = true := by
  have hlen : partitionPoint (fun k => !startsAt start strictStart k) n.keys =
      (es.takeWhile fun e => !startsAt start strictStart e.1).length := by
    rw [partitionPoint, h.keys, takeWhile_map, length_map]
    rfl
  have hmono : es.Pairwise fun a b => (!startsAt start strictStart b.1) = true →
      (!startsAt start strictStart a.1) = true := by
    refine h.sorted.imp fun {a b} hab hb => ?_
    cases strictStart with
    | false => simpa [startsAt] using hab.trans (by simpa [startsAt] using hb)
    | true => simpa [startsAt] using hab.le.trans (by simpa [startsAt] using hb)
  rw [hlen, take_length_takeWhile, drop_takeWhile_eq_filter hmono]
  constructor
  · intro e he
    simpa using mem_takeWhile_imp he
  · intro e he
    simpa using (mem_filter.mp he).2

section Scans

variable {p : Manager} {tree : Tree} {es : List Entry} {σ β : Type} {level fuel : Nat} {cid : Cid}
  {start key : Bytes} (strictStart : Bool) {stop : Option Bytes} {before after : List Entry}
  {n : Node}

/-- The path to the start of a range, cut at the start. -/
theorem Path.seekStart (hsub : Subtree p level cid es) (hfuel : level < fuel) (start : Bytes)
    (strictStart : Bool) :
    ∃ (leaf : Node) (les : List Entry) (frames : List PathFrame) (before after : List Entry),
      p.findReadPathLoop start fuel [] cid = .ok (⟨leaf, childIndex leaf start⟩ :: frames) ∧
      p.seekForwardLoop start strictStart fuel [] cid = .ok (⟨leaf,
        partitionPoint (fun k => !startsAt start strictStart k) leaf.keys⟩ :: frames) ∧
      Cursor.navigateToKey p start fuel [] cid =
        .ok ⟨childIndex leaf start, leaf, frames⟩ ∧
      leaf.IsLeaf les ∧ Path p 0 frames before after ∧ es = before ++ les ++ after ∧
      (∀ e ∈ before, e.1 < start) ∧ (∀ e ∈ after, start < e.1) ∧ frames.length = level := by
  obtain ⟨leaf, les, frames, before, after, hread, hseek, hcursor, hleaf, hpath, hes, hb, ha,
    hlen⟩ :=
    (Path.nil (p := p)).seek hsub hfuel start (by simp) (by simp)
  refine ⟨leaf, les, frames, before, after, hread, ?_, hcursor, hleaf, hpath, by simpa using hes,
    hb, ha, by simpa using hlen⟩
  rw [hseek strictStart]
  simp only [startsAt, Bool.not_not]

theorem startsAt_of_lt (h : key < start) : startsAt start strictStart key = false := by
  cases strictStart
  · simpa [startsAt] using h
  · simpa [startsAt] using h.le

theorem startsAt_of_gt (h : start < key) : startsAt start strictStart key = true := by
  cases strictStart
  · simpa [startsAt] using h.le
  · simpa [startsAt] using h

/-- From the leaf the start of a range belongs to, what is visited is the rest of the leaf
and everything after it, up to the end of the range. -/
theorem entriesIn_of_leaf {strictStart : Bool} {les : List Entry}
    (hs : Sorted (before ++ les ++ after)) (hb : ∀ e ∈ before, e.1 < start)
    (ha : ∀ e ∈ after, start < e.1) {i : Nat}
    (htake : ∀ e ∈ les.take i, startsAt start strictStart e.1 = false)
    (hdrop : ∀ e ∈ les.drop i, startsAt start strictStart e.1 = true) :
    entriesIn start strictStart stop (before ++ les ++ after) =
      (les.drop i ++ after).takeWhile fun e => !endsBeforeOrAt stop e.1 := by
  have hcut : before ++ les ++ after = (before ++ les.take i) ++ (les.drop i ++ after) := by
    rw [append_assoc, append_assoc, ← append_assoc (les.take _), take_append_drop]
  rw [hcut] at hs ⊢
  refine entriesIn_of_split (sorted_append.mp hs).2.1 ?_ ?_
  · intro e he
    rcases mem_append.mp he with he | he
    · exact startsAt_of_lt strictStart (hb e he)
    · exact htake e he
  · intro e he
    rcases mem_append.mp he with he | he
    · exact hdrop e he
    · exact startsAt_of_gt strictStart (ha e he)

/-- `scan_forward_until` visits the entries of the range in order. -/
theorem Manager.scanForwardUntil_eq (h : Holds p tree.root es) (start : Bytes)
    (stop : Option Bytes) (strictStart : Bool) (visit : Visitor σ β) (s : σ) :
    Enough fun fuel => p.scanForwardUntil fuel tree start stop strictStart visit s =
      .ok (visitAll visit s 0 (entriesIn start strictStart stop es)) := by
  unfold Manager.scanForwardUntil
  by_cases hends : endsBeforeOrAt stop start = true
  · exact .of_forall fun fuel => by rw [if_pos hends, entriesIn_eq_nil strictStart hends]; rfl
  simp only [if_neg hends, Manager.seekForward]
  cases hroot : tree.root with
  | none =>
    rw [hroot] at h
    obtain rfl : es = [] := h
    refine ⟨1, fun fuel hfuel => ?_⟩
    obtain _ | fuel := fuel
    · omega
    rfl
  | some cid =>
    rw [hroot] at h
    obtain ⟨level, hsub⟩ := h
    refine ⟨level + es.length + 2, fun fuel hfuel => ?_⟩
    obtain ⟨leaf, les, frames, before, after, -, hseek, -, hleaf, hpath, rfl, hb, ha, hlen⟩ :=
      Path.seekStart hsub (by omega : level < fuel) start strictStart
    obtain ⟨n, hn, hwalk⟩ := hpath.walkForward hleaf
      (partitionPoint (fun k => !startsAt start strictStart k) leaf.keys)
      (by omega : frames.length < fuel)
    obtain ⟨htake, hdrop⟩ := hleaf.startPart start strictStart
    have hsteps : n ≤ fuel := by
      simp only [length_append] at hfuel
      omega
    rw [entriesIn_of_leaf hsub.sorted hb ha htake hdrop, ← hwalk.scanFrames hsteps]
    simp only [hseek, ok_bind]

/-! ### Scanning backward -/

theorem Manager.exclusiveEnd_eq (n : Node) (stop : Option Bytes) :
    Manager.exclusiveEnd n stop = (n.keys.takeWhile fun k => !endsBeforeOrAt stop k).length := by
  cases stop with
  | none => simp [Manager.exclusiveEnd, Node.len, endsBeforeOrAt, takeWhile_eq_self_iff.mpr]
  | some stop =>
    have hbefore : (fun k : Bytes => decide (k < stop)) = fun k =>
        !endsBeforeOrAt (some stop) k := by
      funext k
      rw [Bool.eq_iff_iff]
      simp [endsBeforeOrAt]
    rw [Manager.exclusiveEnd, partitionPoint, hbefore]

/-- The entries of a leaf before the end of a range. -/
theorem Node.IsLeaf.exclusiveEnd (h : n.IsLeaf es) (stop : Option Bytes) :
    Manager.exclusiveEnd n stop = (es.takeWhile fun e => !endsBeforeOrAt stop e.1).length := by
  rw [Manager.exclusiveEnd_eq, h.keys, takeWhile_map, length_map]
  rfl

/-- The children of a node that start before the end of a range: there is a last one, unless
the first one is past the end already. -/
theorem Node.IsInternal.exclusiveEnd {kids : List Child} (h : n.IsInternal level kids)
    (hne : ∀ c ∈ kids, c.entries ≠ [])
    (hfirst : endsBeforeOrAt stop (firstKey (Child.all kids)) = false) :
    ∃ pre c post, kids = pre ++ c :: post ∧ Manager.exclusiveEnd n stop = pre.length + 1 ∧
      endsBeforeOrAt stop (firstKey c.entries) = false ∧
      ∀ d ∈ post, endsBeforeOrAt stop (firstKey d.entries) = true := by
  have hkeys := Child.firstKeys_sorted h.sorted hne
  have hmono : kids.Pairwise fun a b =>
      (!endsBeforeOrAt stop (firstKey b.entries)) = true →
      (!endsBeforeOrAt stop (firstKey a.entries)) = true := by
    refine hkeys.imp fun {a b} hab hb => ?_
    rw [Bool.not_eq_true'] at hb ⊢
    exact Bool.eq_false_iff.mpr fun ha => Bool.eq_false_iff.mp hb (endsBeforeOrAt_mono hab.le ha)
  have hcount : Manager.exclusiveEnd n stop = (kids.takeWhile fun c =>
      !endsBeforeOrAt stop (firstKey c.entries)).length := by
    rw [Manager.exclusiveEnd_eq, h.keys, takeWhile_map, length_map]
    rfl
  have hcut := take_append_drop (kids.takeWhile fun c =>
    !endsBeforeOrAt stop (firstKey c.entries)).length kids
  rw [drop_takeWhile_eq_filter hmono, take_length_takeWhile] at hcut
  have hpost : ∀ d ∈ kids.filter fun c =>
      !!endsBeforeOrAt stop (firstKey c.entries),
      endsBeforeOrAt stop (firstKey d.entries) = true := fun d hd => by
    simpa using (mem_filter.mp hd).2
  rcases eq_nil_or_concat (kids.takeWhile fun c =>
    !endsBeforeOrAt stop (firstKey c.entries)) with hnil | ⟨pre, c, hpre⟩
  · -- the first child starts before the end, so the list is not empty
    obtain ⟨c, rest, rfl⟩ := exists_cons_of_ne_nil h.nonempty
    rw [Child.firstKey_all (hne c mem_cons_self)] at hfirst
    simp [hfirst] at hnil
  · have hc : c ∈ kids.takeWhile fun c =>
        !endsBeforeOrAt stop (firstKey c.entries) := by simp [hpre]
    rw [hpre, concat_eq_append] at hcut hcount
    refine ⟨pre, c, _, by simpa using hcut.symm, by simpa using hcount,
      by simpa using mem_takeWhile_imp hc, hpost⟩

/-- Down to the last entry before the end of a range, where the subtree has one. -/
theorem Path.seekReverse {frames : List PathFrame} (h : Path p level frames before after)
    (hsub : Subtree p level cid es) (hfuel : level < fuel)
    (hfirst : endsBeforeOrAt stop (firstKey es) = false) :
    ∃ (leaf : Node) (les : List Entry) (frames' : List PathFrame) (before' after' : List Entry)
      (i : Nat), p.seekReverseLoop stop fuel frames cid = .ok (⟨leaf, i⟩ :: frames') ∧
      leaf.IsLeaf les ∧ Path p 0 frames' before' after' ∧
      before ++ (es.filter fun e => !endsBeforeOrAt stop e.1) = before' ++ les.take (i + 1) ∧
      frames'.length = level + frames.length := by
  obtain _ | fuel := fuel
  · omega
  induction level generalizing frames before after cid es fuel with
  | zero =>
    obtain ⟨n, hn, hleaf⟩ := hsub
    have htake : es.takeWhile (fun e => !endsBeforeOrAt stop e.1) = _ :=
      takeWhile_before_end hleaf.sorted
    have hpos : 0 < Manager.exclusiveEnd n stop := by
      rw [hleaf.exclusiveEnd]
      cases es with
      | nil => exact absurd rfl hleaf.nonempty
      | cons e es =>
        rw [takeWhile_cons_of_pos (by simpa using hfirst)]
        simp
    refine ⟨n, es, frames, before, after, Manager.exclusiveEnd n stop - 1, ?_, hleaf, h, ?_,
      by simp⟩
    · simp [Manager.seekReverseLoop, hn, hleaf.isEmpty, hpos.ne', hleaf.leaf]
    · rw [Nat.sub_add_cancel hpos, hleaf.exclusiveEnd, ← htake,
        take_length_takeWhile]
  | succ level ih =>
    obtain ⟨n, kids, hn, hint, rfl, hkids⟩ := hsub
    obtain _ | fuel := fuel
    · omega
    obtain ⟨pre, c, post, rfl, hcount, hc, hpost⟩ :=
      hint.exclusiveEnd (fun c hc => (hkids c hc).nonempty) hfirst
    obtain ⟨leaf, les, frames', before', after', i, hseek, hleaf, hpath, hes, hlen⟩ :=
      ih (.cons hint hkids h) (hkids c (by simp)) hc fuel (by omega)
    refine ⟨leaf, les, frames', before', after', i, ?_, hleaf, hpath, ?_, ?_⟩
    · rw [Manager.seekReverseLoop, hn]
      simp [hint.isEmpty, hcount, hint.leaf, hint.childCid, hseek]
    · -- all of the children before `c` is before the end, nothing after it is
      obtain ⟨x, hx, hxk⟩ := exists_mem_firstKey (hkids c (by simp)).nonempty
      have hs := hint.sorted
      rw [Child.all_append] at hs
      have hbefore : ∀ e ∈ Child.all pre, (!endsBeforeOrAt stop e.1) = true := by
        intro e he
        have hlt := (sorted_append.mp hs).2.2 e he x (by simp [hx])
        rw [Bool.not_eq_true']
        refine Bool.eq_false_iff.mpr fun hends => Bool.eq_false_iff.mp hc ?_
        exact endsBeforeOrAt_mono (hxk ▸ hlt.le) hends
      have hafter : ∀ e ∈ Child.all post, ¬ (!endsBeforeOrAt stop e.1) = true := by
        intro e he
        obtain ⟨d, hd, hed⟩ := mem_flatMap.mp he
        have hle := (hkids d (by simp [hd])).sorted.firstKey_le hed
        simp [endsBeforeOrAt_mono hle (hpost d hd)]
      rw [← hes, Child.all_append, Child.all_cons, filter_append, filter_append,
        filter_eq_self.mpr hbefore, filter_eq_nil_iff.mpr hafter, append_nil, append_assoc]
    · simp only [length_cons] at hlen
      omega

/-- A subtree that starts past the end of a range has nothing to scan. -/
theorem Manager.seekReverseLoop_past (hsub : Subtree p level cid es)
    (hfirst : endsBeforeOrAt stop (firstKey es) = true) :
    p.seekReverseLoop stop (fuel + 1) [] cid = .ok [] := by
  obtain ⟨n, hn, hholds⟩ := subtree_iff.mp hsub
  obtain ⟨hempty, hkey⟩ : n.isEmpty = false ∧ n.keys.head? = some (firstKey es) := by
    cases level with
    | zero =>
      have hleaf : n.IsLeaf es := hholds
      obtain ⟨e, es, rfl⟩ := exists_cons_of_ne_nil hleaf.nonempty
      exact ⟨hleaf.isEmpty, by simp [hleaf.keys]⟩
    | succ level =>
      obtain ⟨kids, hint, rfl, hkids⟩ := hholds
      obtain ⟨c, kids, rfl⟩ := exists_cons_of_ne_nil hint.nonempty
      exact ⟨hint.isEmpty, by
        simp [hint.keys, firstKey_append (hkids c mem_cons_self).nonempty]⟩
  have hcount : exclusiveEnd n stop = 0 := by
    rw [exclusiveEnd_eq]
    cases hk : n.keys with
    | nil => rfl
    | cons k ks =>
      obtain rfl : k = firstKey es := by simpa [hk] using hkey
      rw [takeWhile_cons_of_neg (by simpa using hfirst), length_nil]
  simp [seekReverseLoop, hn, hempty, hcount]

/-- Read from its end, a sorted list has the entries from `start` on first. -/
theorem takeWhile_reverse {es : List Entry} (hs : Sorted es) :
    (es.reverse.takeWhile fun e => !decide (e.1 < start)) =
      (es.filter fun e => !decide (e.1 < start)).reverse := by
  rw [takeWhile_eq_filter, filter_reverse]
  refine pairwise_reverse.mpr (hs.imp fun {a b} hab hb => ?_)
  have hb : start ≤ a.1 := by simpa using hb
  simpa using hb.trans hab.le

/-- `scan_range_reverse_until` visits the entries of the range in descending order. -/
theorem Manager.scanRangeReverseUntil_eq (h : Holds p tree.root es) (start : Bytes)
    (stop : Option Bytes) (visit : Visitor σ β) (s : σ) :
    Enough fun fuel => p.scanRangeReverseUntil fuel tree start stop visit s =
      .ok (visitAll visit s 0 (entriesIn start false stop es).reverse) := by
  unfold Manager.scanRangeReverseUntil
  by_cases hends : endsBeforeOrAt stop start = true
  · exact .of_forall fun fuel => by rw [if_pos hends, entriesIn_eq_nil false hends]; rfl
  simp only [if_neg hends, Manager.seekReverse]
  cases hroot : tree.root with
  | none =>
    rw [hroot] at h
    obtain rfl : es = [] := h
    refine ⟨1, fun fuel hfuel => ?_⟩
    obtain _ | fuel := fuel
    · omega
    rfl
  | some cid =>
    rw [hroot] at h
    obtain ⟨level, hsub⟩ := h
    have hs := hsub.sorted
    have hentries : entriesIn start false stop es =
        (es.filter fun e => !endsBeforeOrAt stop e.1).filter fun e => !decide (e.1 < start) := by
      rw [filter_filter]
      rfl
    refine ⟨level + es.length + 2, fun fuel hfuel => ?_⟩
    by_cases hfirst : endsBeforeOrAt stop (firstKey es) = true
    · have hnil : (es.filter fun e => !endsBeforeOrAt stop e.1) = [] := by
        refine filter_eq_nil_iff.mpr fun e he => ?_
        simp [endsBeforeOrAt_mono (hs.firstKey_le he) hfirst]
      obtain _ | fuel := fuel
      · omega
      simp only [seekReverseLoop_past hsub hfirst, ok_bind, hentries, hnil]
      rfl
    · obtain ⟨leaf, les, frames, before, after, i, hseek, hleaf, hpath, hes, hlen⟩ :=
        (Path.nil (p := p)).seekReverse hsub (by omega : level < fuel)
          (Bool.eq_false_iff.mpr hfirst)
      obtain ⟨n, hn, hwalk⟩ := hpath.walkReverse hleaf i
        (by simp only [length_nil] at hlen; omega : frames.length < fuel)
      rw [nil_append] at hes
      have hsteps : n ≤ fuel := by
        have hle := length_filter_le (fun e : Entry => !endsBeforeOrAt stop e.1) es
        rw [hes, length_append] at hle
        omega
      rw [← hes] at hwalk
      rw [hentries, ← takeWhile_reverse (hs.filter _)]
      simp only [hseek, ok_bind]
      exact hwalk.scanFrames hsteps s 0

end Scans

end Prolly

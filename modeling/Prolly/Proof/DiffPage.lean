import Prolly.Proof.Range

/-!
# Prolly.Proof.DiffPage

A diff-page proof recomputes the differences inside the window of its two range-page
proofs, which list exactly the entries there (`verifyRangePageProof_sound`), so the
differences it reports are the first ones after `after`. What it reports about a
next page is another matter: the two lookahead key proofs are checked for
consistency, but their roots are not compared with the roots of the page. A cursor
is therefore right exactly when they are, or when the trees happen to differ past
the window anyway (`diffPageProof_sound_iff`).
-/

namespace Prolly

open SortedAssoc
open List
open PageRange (contains_iff)

/-! ### Diff-page proofs -/

section DiffPage

variable {p : Manager} {bs os : List Entry} {after stop : Option Bytes} {key : Bytes}

def DiffPageProof.nodes (proof : DiffPageProof) : List Node :=
  proof.base.path ++ proof.other.path ++ (proof.lookaheadBase.map KeyProof.path).getD [] ++
    (proof.lookaheadOther.map KeyProof.path).getD []

theorem Admissible.mono {path path' : List Node} (h : Admissible p path')
    (hsub : ∀ n ∈ path, n ∈ path') : Admissible p path where
  decoded n hn := h.decoded n (hsub n hn)
  collisionFree := h.collisionFree.mono (Set.union_subset_union_left _ hsub)

/-- The differences between two maps in a window, in key order. -/
def pageDiffs (bs os : List Entry) (r : PageRange) : List Diff :=
  (diff bs os).filter fun d => r.contains d.key

theorem pageDiffs_eq (hb : Sorted bs) (ho : Sorted os) (r : PageRange) :
    diff (r.restrict bs) (r.restrict os) = pageDiffs bs os r :=
  diff_filter hb ho r.contains

/-- A window that ends inside a larger one has the first of its differences. -/
theorem pageDiffs_split (hb : Sorted bs) (ho : Sorted os)
    (hkey : (PageRange.mk after stop).contains key = true) :
    pageDiffs bs os ⟨after, stop⟩ = pageDiffs bs os ⟨after, some key⟩ ++
      (pageDiffs bs os ⟨after, stop⟩).filter fun d => !decide (d.key < key) := by
  obtain ⟨-, hstop⟩ := contains_iff.mp hkey
  have hsorted := (diff_sorted hb ho).filter
    fun d => (PageRange.mk after stop).contains d.key
  have hbelow : (pageDiffs bs os ⟨after, stop⟩).Pairwise fun d d' =>
      decide (d'.key < key) = true → decide (d.key < key) = true :=
    hsorted.imp fun hlt h => by simpa using hlt.trans (by simpa using h)
  have hfirst : (pageDiffs bs os ⟨after, stop⟩).takeWhile (fun d => decide (d.key < key)) =
      pageDiffs bs os ⟨after, some key⟩ := by
    rw [takeWhile_eq_filter hbelow, pageDiffs, filter_filter, pageDiffs]
    refine filter_congr fun d _ => ?_
    rw [Bool.eq_iff_iff, Bool.and_eq_true, decide_eq_true_iff, contains_iff,
      contains_iff]
    constructor
    · rintro ⟨hlt, hafter, -⟩
      exact ⟨hafter, by simpa using hlt⟩
    · rintro ⟨hafter, hlt⟩
      have hlt : d.key < key := by simpa using hlt
      exact ⟨hlt, hafter, fun s hs => hlt.trans (hstop s hs)⟩
  rw [← hfirst, ← drop_takeWhile_eq_filter hbelow]
  conv_lhs => rw [← take_append_drop ((pageDiffs bs os ⟨after, stop⟩).takeWhile
    fun d => decide (d.key < key)).length (pageDiffs bs os ⟨after, stop⟩)]
  rw [take_length_takeWhile]

/-- There are differences in a window past a key of it exactly where the maps differ
there. -/
theorem exists_later_diff_iff (hb : Sorted bs) (ho : Sorted os)
    (hkey : (PageRange.mk after stop).contains key = true) :
    ((pageDiffs bs os ⟨after, stop⟩).filter fun d => !decide (d.key < key)) ≠ [] ↔
      ∃ k, key ≤ k ∧ (∀ s ∈ stop, k < s) ∧ lookup bs k ≠ lookup os k := by
  obtain ⟨hafter, -⟩ := contains_iff.mp hkey
  constructor
  · intro hne
    obtain ⟨d, hd⟩ := exists_mem_of_ne_nil _ hne
    obtain ⟨hd, hge⟩ := mem_filter.mp hd
    obtain ⟨hd, hc⟩ := mem_filter.mp hd
    exact ⟨d.key, by simpa using hge, (contains_iff.mp hc).2,
      exists_isDiff_iff.mp ⟨d, (mem_diff hb ho d).mp hd, rfl⟩⟩
  · rintro ⟨k, hge, hlt, hne⟩
    obtain ⟨d, hd, rfl⟩ := exists_isDiff_iff.mpr hne
    refine ne_nil_of_mem (a := d) (mem_filter.mpr ⟨mem_filter.mpr
      ⟨(mem_diff hb ho d).mpr hd, ?_⟩, by simpa using hge⟩)
    exact contains_iff.mpr ⟨fun a ha => (hafter a ha).trans_le hge, hlt⟩

/-- What a verified page should report: the first `limit` differences of the requested
window, and a cursor exactly when there are more. -/
def DiffPageCorrect (bs os : List Entry) (proof : DiffPageProof)
    (v : DiffPageProofVerification) : Prop :=
  v.diffs = (pageDiffs bs os ⟨proof.base.range.after, proof.requestedEnd⟩).take proof.limit ∧
    (0 < proof.limit → (v.nextCursor.isSome = true ↔
      proof.limit < (pageDiffs bs os ⟨proof.base.range.after, proof.requestedEnd⟩).length))

/-- The lookahead proofs speak about the trees of the page, or the trees differ past the
window anyway. -/
def LookaheadAnchored (bs os : List Entry) (proof : DiffPageProof) : Prop :=
  ∀ lookaheadBase lookaheadOther, proof.lookaheadBase = some lookaheadBase →
    proof.lookaheadOther = some lookaheadOther →
    (lookaheadBase.root = proof.base.root ∧ lookaheadOther.root = proof.other.root) ∨
      ∃ k, (∀ stop ∈ proof.base.range.stop, stop ≤ k) ∧ (∀ stop ∈ proof.requestedEnd, k < stop) ∧
        lookup bs k ≠ lookup os k

section Verdict

variable {proof : DiffPageProof} {d : Digests}

/-- Everything a valid verdict says, by the kind of page. -/
theorem verifyDiffPageProof_cases (h : (verifyDiffPageProof d proof).valid = true) :
    (verifyRangePageProof d proof.base).valid = true ∧
    (verifyRangePageProof d proof.other).valid = true ∧ proof.base.range = proof.other.range ∧
    (verifyDiffPageProof d proof).diffs =
      diff (verifyRangePageProof d proof.base).entries
        (verifyRangePageProof d proof.other).entries ∧
    ((∃ lb lo, proof.lookaheadBase = some lb ∧ proof.lookaheadOther = some lo ∧
        verifyDiffPageLookahead (verifyKeyProof d lb) (verifyKeyProof d lo)
          proof.base.range.after proof.requestedEnd proof.base.range.stop = true ∧
        0 < proof.limit ∧ (verifyDiffPageProof d proof).diffs.length = proof.limit ∧
        (verifyDiffPageProof d proof).nextCursor.isSome = true) ∨
      ((proof.lookaheadBase = none ∧ proof.lookaheadOther = none) ∧
        ((proof.limit = 0 ∧ (verifyDiffPageProof d proof).diffs = []) ∨
          (0 < proof.limit ∧ proof.base.range.stop = proof.requestedEnd ∧
            (verifyDiffPageProof d proof).diffs.length ≤ proof.limit ∧
            (verifyDiffPageProof d proof).nextCursor = none)))) := by
  generalize hv : verifyDiffPageProof d proof = v at h ⊢
  simp only [verifyDiffPageProof] at hv
  split at hv
  · subst hv; simp at h
  next hpages =>
    simp only [Bool.not_eq_true, Bool.not_eq_false', Bool.and_eq_true, decide_eq_true_eq] at hpages
    refine ⟨hpages.1.1, hpages.1.2, hpages.2, ?_⟩
    split at hv
    · next lb lo hlb hlo =>
        split at hv
        · next hcond =>
            simp only [Bool.and_eq_true, decide_eq_true_eq] at hcond
            subst hv
            refine ⟨rfl, .inl ⟨lb, lo, hlb, hlo, hcond.1.1, hcond.1.2, hcond.2, ?_⟩⟩
            have hne : diffEntrySlices (verifyRangePageProof d proof.base).entries
                (verifyRangePageProof d proof.other).entries ≠ [] :=
              ne_nil_of_length_pos (hcond.2 ▸ hcond.1.2)
            simpa using hne
        · subst hv; simp at h
    · next hlb hlo =>
        split at hv
        · next hlimit =>
            split at hv
            · next hnil =>
                subst hv
                exact ⟨(isEmpty_iff.mp hnil).symm, .inr ⟨⟨hlb, hlo⟩, .inl ⟨hlimit, rfl⟩⟩⟩
            · subst hv; simp at h
        · next hlimit =>
            split at hv
            · next hcond =>
                simp only [Bool.and_eq_true, decide_eq_true_eq] at hcond
                subst hv
                exact ⟨rfl, .inr ⟨⟨hlb, hlo⟩, .inr
                  ⟨Nat.pos_of_ne_zero hlimit, hcond.1, hcond.2, rfl⟩⟩⟩
            · subst hv; simp at h
    · subst hv; simp at h

end Verdict

/-- A lookahead pair over the trees of the page exhibits a difference at the end of the
window. -/
theorem verifyDiffPageLookahead_spec {base other : KeyProofVerification}
    {requestedEnd proofEnd : Option Bytes}
    (h : verifyDiffPageLookahead base other after requestedEnd proofEnd = true) :
    base.valid = true ∧ other.valid = true ∧ base.key = other.key ∧ proofEnd = some base.key ∧
      (PageRange.mk after requestedEnd).contains base.key = true ∧ base.value ≠ other.value := by
  rw [verifyDiffPageLookahead] at h
  split at h
  · cases h
  next hproofs =>
    split at h
    · cases h
    next hbounds =>
      simp only [Bool.or_eq_true, Bool.not_eq_true', decide_eq_true_eq, not_or, Bool.not_eq_false,
        not_not] at hproofs hbounds
      refine ⟨hproofs.1.1, hproofs.1.2, hproofs.2, hbounds.1, hbounds.2, ?_⟩
      split at h
      · cases h
      · next hl hr =>
          rw [hl, hr]
          simpa using h
      · next hnone hsome =>
          intro heq
          cases hv : base.value with
          | none => exact hnone hv (heq ▸ hv)
          | some v => exact hsome v v hv (heq ▸ hv)

/-- A valid diff-page proof over the roots of two trees reports the right page exactly when
its lookahead proofs are anchored. -/
theorem diffPageProof_sound_iff {proof : DiffPageProof} (hadm : Admissible p proof.nodes)
    (hb : Holds p proof.base.root bs) (ho : Holds p proof.other.root os)
    (hvalid : (verifyDiffPageProof p.digests proof).valid = true) :
    DiffPageCorrect bs os proof (verifyDiffPageProof p.digests proof) ↔
      LookaheadAnchored bs os proof := by
  obtain ⟨hbase, hother, hrange, hdiffs, hkind⟩ := verifyDiffPageProof_cases hvalid
  have hbaseAdm : Admissible p proof.base.path :=
    hadm.mono fun n hn => by simp [DiffPageProof.nodes, hn]
  have hotherAdm : Admissible p proof.other.path :=
    hadm.mono fun n hn => by simp [DiffPageProof.nodes, hn]
  -- the reported differences are all those of the proof's window
  rw [verifyRangePageProof_sound hbaseAdm.authentic hb hbase,
    verifyRangePageProof_sound hotherAdm.authentic ho hother,
    ← hrange, pageDiffs_eq hb.sorted ho.sorted] at hdiffs
  rcases hkind with ⟨lb, lo, hlb, hlo, hlook, hlimit, hlen, hnext⟩ |
    ⟨⟨hlb, hlo⟩, ⟨hlimit, hnil⟩ | ⟨hlimit, hstop, hlen, hnext⟩⟩
  · -- a page with a next cursor: the window ends at the lookahead key
    obtain ⟨hlbValid, hloValid, hkeys, hend, hinside, hvalues⟩ := verifyDiffPageLookahead_spec hlook
    have hkey : (verifyKeyProof p.digests lb).key = lb.key := rfl
    rw [hkey] at hend hinside
    have hwindow : proof.base.range = ⟨proof.base.range.after, some lb.key⟩ := by
      rw [← hend]
    have hsplit := pageDiffs_split hb.sorted ho.sorted hinside
    rw [← hwindow, ← hdiffs] at hsplit
    have hlater := exists_later_diff_iff hb.sorted ho.sorted hinside
    have hmore : proof.limit < (pageDiffs bs os ⟨proof.base.range.after,
        proof.requestedEnd⟩).length ↔ ∃ k, lb.key ≤ k ∧
          (∀ s ∈ proof.requestedEnd, k < s) ∧ lookup bs k ≠ lookup os k := by
      have hlength := congrArg List.length hsplit
      rw [length_append, hlen] at hlength
      rw [← hlater, hlength, ← length_pos_iff]
      omega
    have hcorrect : DiffPageCorrect bs os proof (verifyDiffPageProof p.digests proof) ↔
        ∃ k, lb.key ≤ k ∧ (∀ s ∈ proof.requestedEnd, k < s) ∧ lookup bs k ≠ lookup os k := by
      rw [← hmore, DiffPageCorrect, hnext]
      constructor
      · rintro ⟨-, h⟩
        exact (h hlimit).mp rfl
      · intro h
        refine ⟨?_, fun _ => ⟨fun _ => h, fun _ => rfl⟩⟩
        rw [hsplit, ← hlen, take_left]
    rw [hcorrect]
    constructor
    · rintro ⟨k, hge, hlt, hne⟩ lb' lo' hlb' -
      obtain rfl : lb = lb' := Option.some.inj (hlb.symm.trans hlb')
      exact .inr ⟨k, by rw [hend]; simpa using hge, hlt, hne⟩
    · intro hanchored
      rcases hanchored lb lo hlb hlo with ⟨hbroot, horoot⟩ | ⟨k, hge, hlt, hne⟩
      · -- the key proofs are about the trees of the page
        have hlbAdm : Admissible p lb.path :=
          hadm.mono fun n hn => by simp [DiffPageProof.nodes, hlb, hn]
        have hloAdm : Admissible p lo.path :=
          hadm.mono fun n hn => by simp [DiffPageProof.nodes, hlo, hn]
        have hbval := verifyKeyProof_sound hlbAdm.authentic (hbroot ▸ hb) hlbValid
        have hoval := verifyKeyProof_sound hloAdm.authentic (horoot ▸ ho) hloValid
        have hkeys : lb.key = lo.key := hkeys
        rw [hbval, hoval, ← hkeys] at hvalues
        exact ⟨lb.key, le_refl _, (contains_iff.mp hinside).2, hvalues⟩
      · exact ⟨k, by rw [hend] at hge; simpa using hge, hlt, hne⟩
  · -- a page of limit zero
    refine iff_of_true ⟨?_, fun h => absurd hlimit h.ne'⟩ fun lb lo h => by simp [hlb] at h
    rw [hnil, hlimit, take_zero]
  · -- a last page: its window is the requested one
    have hwindow : proof.base.range = ⟨proof.base.range.after, proof.requestedEnd⟩ := by
      rw [← hstop]
    rw [hwindow] at hdiffs
    refine iff_of_true ⟨?_, fun _ => ?_⟩ fun lb lo h => by simp [hlb] at h
    · rw [hdiffs, take_of_length_le (hdiffs ▸ hlen)]
    · rw [hnext]
      simpa using hdiffs ▸ hlen

end DiffPage

section

open Reversed

/-- A page from `{a, b, c}` to `{u, a, b, c}` whose lookahead proofs speak of other trees: of the
empty tree, and of `{a}`. -/
def forgedPage : DiffPageProof where
  base := ⟨abc.root, ⟨none, some a.1⟩, path [abcCid]⟩
  other := ⟨uabc.root, ⟨none, some a.1⟩, path [ucCid, uaCid, uCid]⟩
  lookaheadBase := some ⟨none, a.1, []⟩
  lookaheadOther := some ⟨some aCid, a.1, path [aCid]⟩
  requestedEnd := none
  limit := 1

/-- The forged page is valid and promises a next page, though `u` is the only difference. -/
theorem forgedPage_accepted :
    Admissible manager forgedPage.nodes ∧
    Holds manager forgedPage.base.root [a, b, c] ∧
    Holds manager forgedPage.other.root [u, a, b, c] ∧
    (verifyDiffPageProof digests forgedPage).valid = true ∧
    ¬ DiffPageCorrect [a, b, c] [u, a, b, c] forgedPage
      (verifyDiffPageProof digests forgedPage) := by
  refine ⟨admissible (by decide +kernel), holds_abc, holds_uabc, by decide +kernel, ?_⟩
  rintro ⟨-, h⟩
  exact absurd ((h (by decide)).mp (by decide +kernel)) (by decide +kernel)

/-- An honest first page from `{a, b, c}` to `{u, a}`, with the proofs of what both bind `b` to. -/
def honestPage : DiffPageProof where
  base := ⟨abc.root, ⟨none, some b.1⟩, path [abcCid, abCid, aCid]⟩
  other := ⟨ua.root, ⟨none, some b.1⟩, path [uaCid, uCid, aCid]⟩
  lookaheadBase := some ⟨abc.root, b.1, path [abcCid, abCid, bCid]⟩
  lookaheadOther := some ⟨ua.root, b.1, path [uaCid, aCid]⟩
  requestedEnd := none
  limit := 1

theorem honestPage_correct :
    DiffPageCorrect [a, b, c] [u, a] honestPage (verifyDiffPageProof digests honestPage) := by
  refine (diffPageProof_sound_iff (admissible (by decide +kernel)) holds_abc holds_ua
    (by decide +kernel)).mpr fun lb lo hlb hlo => ?_
  cases hlb
  cases hlo
  exact .inl ⟨rfl, rfl⟩

end

end Prolly

import Prolly.Proof.Complete

/-!
# Prolly.Proof.ProvedPages

Range proofs, and pages with their proofs. A page with more to come is proved over a
window that ends at the next key, so that the window holds exactly the page
(`PageRange.filter_lookahead`); for a diff page that next key is a difference, which two
key proofs exhibit.
-/

namespace Prolly

open SortedAssoc (Sorted lookup)
open List
open PageRange (contains_iff restrict)

/-- The cursor after a page of `limit` keys. -/
def pageCursor (cursor : RangeCursor) (limit : Nat) (keys : List Bytes) : Option RangeCursor :=
  if limit = 0 then some cursor
  else if limit < keys.length then (keys.take limit).getLast?.map fun key => ⟨some key⟩
  else none

/-- A page of the entries `es` and a proof of it over the root. -/
structure ProvedRangePage.Exact (d : Digests) (root : Option Cid) (es : List Entry)
    (cursor : RangeCursor) (limit : Nat) (proved : ProvedRangePage) : Prop where
  page : proved.page = ⟨es.take limit, pageCursor cursor limit (es.map Prod.fst)⟩
  after : proved.proof.range.after = cursor.afterKey
  verified : verifyRangePageProof d proved.proof =
    ⟨true, root, proved.proof.range, proved.page.entries⟩

/-- A page of the differences `ds` and a proof of it over the two roots. -/
structure ProvedDiffPage.Exact (d : Digests) (base other : Option Cid) (ds : List Diff)
    (cursor : RangeCursor) (limit : Nat) (proved : ProvedDiffPage) : Prop where
  page : proved.page = ⟨ds.take limit, pageCursor cursor limit (ds.map fun d => d.key)⟩
  roots : proved.proof.base.root = base ∧ proved.proof.other.root = other
  verified : verifyDiffPageProof d proved.proof =
    ⟨true, true, true, true, proved.page.diffs, proved.page.nextCursor⟩

/-! ### Range proofs -/

section Ranges

variable {p : Manager} {tree : Tree} {es : List Entry} {α : Type} (key : α → Bytes) {xs : List α}

/-- `prove_range` makes a valid proof of the entries of the range. -/
theorem Manager.proveRange_complete (hd : p.FromBytes) (h : Holds p tree.root es) (start : Bytes)
    (stop : Option Bytes) :
    Enough fun fuel => ∃ proof, p.proveRange fuel tree start stop = .ok proof ∧
      verifyRangeProof p.digests proof =
        ⟨true, tree.root, ⟨start, stop⟩, KeyRange.restrict ⟨start, stop⟩ es⟩ := by
  have hpath := provePath_complete hd (KeyRange.mk start stop).window_lawful h
  refine hpath.mono fun fuel ⟨path, hprove, hverify⟩ => ⟨⟨tree.root, ⟨start, stop⟩, path⟩, ?_, ?_⟩
  · have hprove : provePath (endsBeforeOrAt stop start)
        (p.collectRangeProofNodes fuel ⟨start, stop⟩) tree.root = .ok path := hprove
    simp [proveRange, hprove]
  · have hverify : verifyWindow (KeyRange.mk start stop).window.isEmptyByBounds
        (verifyRangeNode p.digests ⟨start, stop⟩) tree.root path =
          some (KeyRange.restrict ⟨start, stop⟩ es) := hverify
    simp only [verifyRangeProof, hverify]
    rfl

/-- `prove_range_page_window` makes a valid proof of the entries of the window. -/
theorem Manager.proveRangePageWindow_complete (hd : p.FromBytes) (h : Holds p tree.root es)
    (r : PageRange) :
    Enough fun fuel => ∃ proof, p.proveRangePageWindow fuel tree r = .ok proof ∧
      proof.range = r ∧
      verifyRangePageProof p.digests proof = ⟨true, tree.root, r, r.restrict es⟩ := by
  have hpath := provePath_complete hd r.window_lawful h
  refine hpath.mono fun fuel ⟨path, hprove, hverify⟩ => ⟨⟨tree.root, r, path⟩, ?_, rfl, ?_⟩
  · have hprove : provePath r.isEmptyByBounds (p.collectRangePageProofNodes fuel r) tree.root =
        .ok path := hprove
    simp [proveRangePageWindow, hprove]
  · have hverify : verifyWindow r.isEmptyByBounds (verifyRangePageNode p.digests r) tree.root path =
        some (r.restrict es) := hverify
    simp only [verifyRangePageProof, hverify]
    rfl

/-! ### Range pages -/

/-- A page that ends before the element at an index has the elements before that index. -/
theorem PageRange.filter_lookahead (hs : xs.Pairwise fun a b => key a < key b) {r : PageRange}
    {i : Nat} {x : α} (hx : (xs.filter fun a => r.contains (key a))[i]? = some x) :
    xs.filter (fun a => (PageRange.mk r.after (some (key x))).contains (key a)) =
      (xs.filter fun a => r.contains (key a)).take i := by
  obtain ⟨hi, hxi⟩ := List.getElem?_eq_some_iff.mp hx
  have hcut := drop_eq_getElem_cons hi
  rw [hxi] at hcut
  have hys := hs.filter fun a => r.contains (key a)
  rw [← take_append_drop i (xs.filter _), hcut, pairwise_append] at hys
  obtain ⟨-, hlater, hbefore⟩ := hys
  have hinside : r.contains (key x) = true := by
    have hmem := mem_of_getElem? hx
    exact (mem_filter.mp hmem).2
  obtain ⟨-, hstop⟩ := contains_iff.mp hinside
  have hnarrow : xs.filter (fun a => (PageRange.mk r.after (some (key x))).contains (key a)) =
      (xs.filter fun a => r.contains (key a)).filter fun a => decide (key a < key x) := by
    rw [filter_filter]
    refine filter_congr fun a _ => ?_
    rw [Bool.eq_iff_iff, Bool.and_eq_true, decide_eq_true_iff, contains_iff,
      contains_iff]
    constructor
    · rintro ⟨hafter, hlt⟩
      have hlt : key a < key x := hlt (key x) rfl
      exact ⟨hlt, hafter, fun stop hs => hlt.trans (hstop stop hs)⟩
    · rintro ⟨hlt, hafter, -⟩
      exact ⟨hafter, by simpa using hlt⟩
  have hkeep : ((xs.filter fun a => r.contains (key a)).take i).filter
      (fun a => decide (key a < key x)) = (xs.filter fun a => r.contains (key a)).take i :=
    filter_eq_self.mpr fun a ha => by simpa using hbefore a ha x mem_cons_self
  have hpast : ((xs.filter fun a => r.contains (key a)).drop i).filter
      (fun a => decide (key a < key x)) = [] := by
    refine filter_eq_nil_iff.mpr fun a ha => ?_
    rw [hcut] at ha
    rcases mem_cons.mp ha with rfl | ha
    · simp
    · simpa using (rel_of_pairwise_cons hlater ha).le
  rw [hnarrow]
  conv_lhs => rw [← take_append_drop i (xs.filter fun a => r.contains (key a))]
  rw [filter_append, hkeep, hpast, append_nil]

/-- The window of a page: it ends at the next key, or where the request does. -/
theorem PageRange.filter_page (hs : xs.Pairwise fun a b => key a < key b) (r : PageRange)
    (limit : Nat) :
    xs.filter (fun a => (PageRange.mk r.after
        (((xs.filter fun a => r.contains (key a))[limit]?.map key).or r.stop)).contains (key a)) =
      (xs.filter fun a => r.contains (key a)).take limit := by
  cases hx : (xs.filter fun a => r.contains (key a))[limit]? with
  | none => rw [take_of_length_le (getElem?_eq_none_iff.mp hx)]; rfl
  | some x => exact PageRange.filter_lookahead key hs hx

theorem pageCursor_of_ne_zero {cursor : RangeCursor} {limit : Nat} (hlimit : limit ≠ 0) :
    pageCursor cursor limit (xs.map key) =
      xs[limit]?.bind fun _ => (xs.take limit).getLast?.map fun x => ⟨some (key x)⟩ := by
  rw [pageCursor, if_neg hlimit, length_map, ← map_take, getLast?_map, Option.map_map]
  split
  · next hlt => rw [getElem?_eq_getElem hlt]; rfl
  · next hle => rw [getElem?_eq_none (not_lt.mp hle)]; rfl

/-- A page of no entries is proved over an empty window. -/
theorem verifyRangePageProof_noPage (d : Digests) (root : Option Cid) (after : Option Bytes) :
    verifyRangePageProof d ⟨root, ⟨after, after.or (some [])⟩, []⟩ =
      ⟨true, root, ⟨after, after.or (some [])⟩, []⟩ := by
  have hempty : (PageRange.mk after (after.or (some []))).isEmptyByBounds = true := by
    cases after <;> simp [PageRange.isEmptyByBounds]
  simp only [verifyRangePageProof, verifyWindow, hempty, if_true]
  rfl

section Items

variable {S : Type} {next : S → Result (Option Entry × S)} {fuel : Nat} {s : S}

/-- An iterator that collects `es` yields its first entry. -/
theorem next_of_collectItems (h : collectItems next fuel s = .ok es) :
    ∃ s', next s = .ok (es.head?, s') := by
  cases fuel with
  | zero => cases h
  | succ fuel =>
    rw [collectItems] at h
    obtain ⟨⟨item, s'⟩, hnext, h⟩ := of_bind h
    cases item with
    | none => exact ⟨s', by rw [hnext, ← Except.ok.inj h]; rfl⟩
    | some e =>
      obtain ⟨rest, -, h⟩ := of_bind h
      exact ⟨s', by rw [hnext, ← Except.ok.inj h]; rfl⟩

/-- Reading `limit` entries off such an iterator. -/
theorem takeItems_of_collectItems (h : collectItems next fuel s = .ok es) (limit : Nat) :
    (es.length < limit ∧ Manager.takeItems next limit s = .ok (es, none)) ∨
    ∃ s' fuel', Manager.takeItems next limit s = .ok (es.take limit, some s') ∧
      limit ≤ es.length ∧ collectItems next fuel' s' = .ok (es.drop limit) := by
  induction limit generalizing s es fuel with
  | zero => exact .inr ⟨s, fuel, rfl, Nat.zero_le _, h⟩
  | succ limit ih =>
    cases fuel with
    | zero => cases h
    | succ fuel =>
      rw [collectItems] at h
      obtain ⟨⟨item, s'⟩, hnext, h⟩ := of_bind h
      rw [Manager.takeItems, hnext]
      cases item with
      | none =>
        obtain rfl := Except.ok.inj h
        exact .inl ⟨Nat.succ_pos _, rfl⟩
      | some e =>
        obtain ⟨rest, hrest, h⟩ := of_bind h
        obtain rfl := Except.ok.inj h
        rcases ih hrest with ⟨hlen, htake⟩ | ⟨s'', fuel', htake, hlen, hlater⟩
        · exact .inl ⟨by simpa using hlen, by simp [htake]⟩
        · exact .inr ⟨s'', fuel', by simp [htake], by simpa using hlen, hlater⟩

end Items

/-- The iterator of a cursor yields the entries of the window after it. -/
theorem Manager.rangeFromCursor_eq (h : Holds p tree.root es) (cursor : RangeCursor)
    (stop : Option Bytes) :
    Enough fun fuel => (p.rangeFromCursor fuel tree cursor stop >>=
      collectItems (RangeIter.next p fuel) fuel) =
        .ok (restrict ⟨cursor.afterKey, stop⟩ es) := by
  obtain ⟨after⟩ := cursor
  cases after with
  | some after =>
    simp only [← entriesIn_eq_page]
    exact p.rangeAfter_eq h after stop
  | none =>
    have hall : entriesIn [] false stop es = restrict ⟨none, stop⟩ es := by
      refine filter_congr fun e _ => ?_
      rw [Bool.eq_iff_iff, contains_iff]
      cases stop <;> simp [startsAt, endsBeforeOrAt, not_lt_nil]
    simp only [← hall]
    exact p.range_eq h [] stop

/-- `prove_range_page` reads the first entries of the window and makes a valid proof of
them. -/
theorem Manager.proveRangePage_complete (hd : p.FromBytes) (h : Holds p tree.root es)
    (cursor : RangeCursor) (stop : Option Bytes) {limit : Nat} (hfits : VecFits entrySize limit) :
    Enough fun fuel => ∃ proved, p.proveRangePage fuel tree cursor stop limit = .ok proved ∧
      proved.Exact p.digests tree.root (restrict ⟨cursor.afterKey, stop⟩ es) cursor
        limit := by
  by_cases hlimit : limit = 0
  · subst hlimit
    exact .of_forall fun fuel => ⟨_, rfl, rfl, rfl, verifyRangePageProof_noPage ..⟩
  have hpage := PageRange.filter_page Prod.fst h.sorted ⟨cursor.afterKey, stop⟩ limit
  generalize hys : restrict ⟨cursor.afterKey, stop⟩ es = ys
  have hys' : es.filter (fun e => (PageRange.mk cursor.afterKey stop).contains e.1) = ys := hys
  rw [hys'] at hpage
  have hread := rangeFromCursor_eq h cursor stop
  have hprove := proveRangePageWindow_complete hd h
    ⟨cursor.afterKey, (ys[limit]?.map Prod.fst).or stop⟩
  refine (hread.and hprove).mono fun fuel ⟨hread, proof, hproof, hrange, hverify⟩ => ?_
  rw [hys] at hread
  obtain ⟨it, hit, hcollect⟩ := of_bind hread
  have hentries : verifyRangePageProof p.digests proof =
      ⟨true, tree.root, proof.range, ys.take limit⟩ := by
    rw [hverify, hrange, ← hpage]
    rfl
  refine ⟨⟨⟨ys.take limit, pageCursor cursor limit (ys.map Prod.fst)⟩, proof⟩, ?_, rfl,
    by rw [hrange], hentries⟩
  rw [pageCursor_of_ne_zero _ hlimit]
  simp only [proveRangePage, hlimit, if_false, hit, ok_bind, withCapacity, hfits, if_true]
  rcases takeItems_of_collectItems hcollect limit with ⟨hlen, htake⟩ |
    ⟨it', fuel', htake, hlen, hlater⟩
  · -- the iterator ended inside the page
    have hnone : ys[limit]? = none := getElem?_eq_none hlen.le
    rw [hnone, Option.map_none, Option.none_or] at hproof
    simp only [htake, ok_bind, hproof, pure_eq, hnone, Option.bind_none, take_of_length_le hlen.le]
  · obtain ⟨it'', hnext⟩ := next_of_collectItems hlater
    rw [head?_drop] at hnext
    simp only [htake, ok_bind, hnext, hproof, pure_eq]

end Ranges

/-! ### Diff pages -/

section DiffPages

variable {p : Manager} {base other : Tree} {bs os : List Entry}

/-- The differences after a cursor. -/
theorem Manager.diffFromCursor_eq (hl : p.LineageSound) (hb : Holds p base.root bs)
    (ho : Holds p other.root os) (cursor : RangeCursor) (stop : Option Bytes) :
    Enough fun fuel => p.diffFromCursor fuel base other cursor stop =
      .ok (pageDiffs bs os ⟨cursor.afterKey, stop⟩) := by
  have hrange := computeRangeDiff_eq hl hb ho (cursor.afterKey.getD []) stop
  refine hrange.mono fun fuel hdiffs => ?_
  rw [diffFromCursor, hdiffs, ok_bind]
  obtain ⟨after⟩ := cursor
  cases after with
  | none =>
    refine congrArg Except.ok (filter_congr fun d _ => ?_)
    rw [Bool.eq_iff_iff, contains_iff]
    have hnil : [] ≤ d.key := not_lt.mp (not_lt_nil _)
    cases stop <;> simp [keyInRange, hnil]
  | some after =>
    refine congrArg Except.ok ?_
    rw [filter_filter, pageDiffs]
    refine filter_congr fun d _ => ?_
    rw [Bool.eq_iff_iff, contains_iff]
    cases stop <;> simp [keyInRange] <;> grind

theorem Manager.proveLookahead_complete (hd : p.FromBytes) {tree : Tree} {es : List Entry}
    (h : Holds p tree.root es) (key : Option Bytes) :
    Enough fun fuel => ∃ lookahead, p.proveLookahead fuel tree key = .ok lookahead ∧
      lookahead.map (verifyKeyProof p.digests) =
        key.map fun key => ⟨true, tree.root, key, lookup es key⟩ := by
  cases key with
  | none => exact .of_forall fun fuel => ⟨none, rfl, rfl⟩
  | some key =>
    refine (proveKey_complete hd h key).mono fun fuel ⟨proof, hproof, hverify⟩ => ?_
    exact ⟨some proof, by simp [proveLookahead, hproof], by simp [hverify]⟩

/-- A difference of two maps is a valid lookahead. -/
theorem verifyDiffPageLookahead_of_mem (hb : Sorted bs) (ho : Sorted os) {x : Diff}
    {after stop : Option Bytes} (hx : x ∈ pageDiffs bs os ⟨after, stop⟩) (r r' : Option Cid) :
    verifyDiffPageLookahead ⟨true, r, x.key, lookup bs x.key⟩ ⟨true, r', x.key, lookup os x.key⟩
      after stop (some x.key) = true := by
  obtain ⟨hx, hinside⟩ := mem_filter.mp hx
  have hne : lookup bs x.key ≠ lookup os x.key :=
    SortedAssoc.exists_isDiff_iff.mp ⟨x, (SortedAssoc.mem_diff hb ho x).mp hx, rfl⟩
  simp only [verifyDiffPageLookahead, hinside]
  cases hl : lookup bs x.key <;> cases hr : lookup os x.key <;> simp_all

/-- `prove_diff_page` makes a valid proof of the page it returns. -/
theorem Manager.proveDiffPage_complete (hd : p.FromBytes) (hl : p.LineageSound)
    (hb : Holds p base.root bs) (ho : Holds p other.root os) (cursor : RangeCursor)
    (stop : Option Bytes) (limit : Nat) :
    Enough fun fuel => ∃ proved, p.proveDiffPage fuel base other cursor stop limit = .ok proved ∧
      proved.Exact p.digests base.root other.root (pageDiffs bs os ⟨cursor.afterKey, stop⟩) cursor
        limit := by
  by_cases hlimit : limit = 0
  · subst hlimit
    refine .of_forall fun fuel => ⟨_, rfl, rfl, ⟨rfl, rfl⟩, ?_⟩
    simp only [verifyDiffPageProof, verifyRangePageProof_noPage]
    rfl
  have hpage := PageRange.filter_page (fun d : Diff => d.key)
    (SortedAssoc.diff_sorted hb.sorted ho.sorted) ⟨cursor.afterKey, stop⟩ limit
  have hlook := fun x (hx : (pageDiffs bs os ⟨cursor.afterKey, stop⟩)[limit]? = some x) =>
    verifyDiffPageLookahead_of_mem hb.sorted ho.sorted (mem_of_getElem? hx) base.root other.root
  change pageDiffs bs os ⟨cursor.afterKey, ((pageDiffs bs os ⟨cursor.afterKey, stop⟩)[limit]?.map
    fun d => d.key).or stop⟩ = (pageDiffs bs os ⟨cursor.afterKey, stop⟩).take limit at hpage
  have hdiffs := diffFromCursor_eq hl hb ho cursor stop
  generalize pageDiffs bs os ⟨cursor.afterKey, stop⟩ = ds at *
  generalize hkey : ds[limit]?.map (fun d => d.key) = key at *
  have hparts := (((proveRangePageWindow_complete hd hb ⟨cursor.afterKey, key.or stop⟩).and
    (proveRangePageWindow_complete hd ho ⟨cursor.afterKey, key.or stop⟩)).and
    ((proveLookahead_complete hd hb key).and (proveLookahead_complete hd ho key))).and hdiffs
  refine hparts.mono fun fuel hfuel => ?_
  obtain ⟨⟨⟨⟨bp, hbp, hbr, hbv⟩, op, hop, hor, hov⟩, ⟨lb, hlb, hlbv⟩, lo, hlo, hlov⟩, hread⟩ :=
    hfuel
  have hcursor : pageCursor cursor limit (ds.map fun d => d.key) =
      key.bind fun _ => (ds.take limit).getLast?.map fun d => ⟨some d.key⟩ := by
    rw [pageCursor_of_ne_zero _ hlimit, ← hkey, Option.bind_map]
    rfl
  refine ⟨⟨⟨ds.take limit, pageCursor cursor limit (ds.map fun d => d.key)⟩,
    ⟨bp, op, lb, lo, stop, limit⟩⟩, ?_, rfl, ⟨?_, ?_⟩, ?_⟩
  · simp only [proveDiffPage, hlimit, if_false, hread, ok_bind, hkey, hlb, hlo, hbp, hop,
      pure_eq, hcursor]
  · exact congrArg RangePageProofVerification.root hbv
  · exact congrArg RangePageProofVerification.root hov
  · have hrecomputed : diffEntrySlices (restrict ⟨cursor.afterKey, key.or stop⟩ bs)
        (restrict ⟨cursor.afterKey, key.or stop⟩ os) = ds.take limit :=
      (pageDiffs_eq hb.sorted ho.sorted _).trans hpage
    simp only [verifyDiffPageProof, hbv, hov, hbr, hor, hrecomputed, hcursor]
    cases hx : ds[limit]? with
    | none =>
      -- the last page: its window ends where the request does
      obtain rfl : key = none := by rw [← hkey, hx]; rfl
      obtain rfl : lb = none := Option.map_eq_none_iff.mp hlbv
      obtain rfl : lo = none := Option.map_eq_none_iff.mp hlov
      simp [hlimit]
    | some x =>
      obtain rfl : key = some x.key := by rw [← hkey, hx]; rfl
      obtain ⟨kb, rfl, hkb⟩ := Option.map_eq_some_iff.mp hlbv
      obtain ⟨ko, rfl, hko⟩ := Option.map_eq_some_iff.mp hlov
      have hlen : (ds.take limit).length = limit :=
        length_take_of_le (List.getElem?_eq_some_iff.mp hx).1.le
      simp [hkb, hko, hlook x hx, hlen, Nat.pos_of_ne_zero hlimit]

end DiffPages

/-! ### Completeness -/

section Complete

variable {p : Manager} {base other : Tree} {bs os : List Entry}

end Complete

section

open Reversed

theorem Reversed.fromBytes : manager.FromBytes := by
  intro cid n hn
  obtain ⟨row, hfind, rfl⟩ := Option.map_eq_some_iff.mp hn
  have hmem := mem_map_of_mem (f := Prod.fst) (mem_of_find?_eq_some hfind)
  exact (admissible (forall_mem_singleton.mpr hmem)).decoded _ mem_cons_self

end

end Prolly

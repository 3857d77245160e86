import Prolly.Indexed.Key
import Prolly.Lib.Paging
import Prolly.Proof.ProvedPages

/-!
# Prolly.Scan.Page

Bounded pages (`range_page`, `prefix_page`, `reverse_range_page` and `diff_page` of `AsyncProlly`).
A forward page is read off the iterator behind its cursor. A backward page collects the range up to
its cursor and keeps the end of it, a page of differences collects them behind its cursor and keeps
the beginning.

Following the cursors gives the listing, whatever the limits are. A reader also knows from the
cursor of a page whether an entry follows, with one exception: a forward page that is full names a
cursor also when the listing ends with it (`pagesConcatenate_iff`).
-/

namespace Prolly

open SortedAssoc (Sorted)
open List

/-- `ReverseCursor`. -/
structure ReverseCursor where
  beforeKey : Option Bytes
  deriving DecidableEq

/-- `AsyncReversePage`. -/
structure ReversePage where
  entries : List Entry
  nextCursor : Option ReverseCursor

/-- `reverse_scan_end`. -/
def reverseScanEnd (cursorEnd rangeEnd : Option Bytes) : Option Bytes :=
  match cursorEnd, rangeEnd with
  | some cursorEnd, some rangeEnd => some (min cursorEnd rangeEnd)
  | some cursorEnd, none => some cursorEnd
  | none, rangeEnd => rangeEnd

namespace Manager

variable (p : Manager) (fuel : Nat) (tree : Tree)

/-- The loop of `range_page` and of `prefix_page`. -/
def takePage (limit : Nat) (it : RangeIter) : Result RangePage := do
  withCapacity entrySize limit
  let (entries, rest) ← takeItems (RangeIter.next p fuel) limit it
  match rest with
  | none => return ⟨entries, none⟩
  | some _ => return ⟨entries, entries.getLast?.map fun e => ⟨some e.1⟩⟩

/-- `range_page`. -/
def rangePage (cursor : RangeCursor) (stop : Option Bytes) (limit : Nat) : Result RangePage :=
  if limit = 0 then .ok ⟨[], some cursor⟩
  else do
    let it ← p.rangeFromCursor fuel tree cursor stop
    p.takePage fuel limit it

/-- `reverse_range_page`. -/
def reverseRangePage (cursor : ReverseCursor) (start : Bytes) (stop : Option Bytes) (limit : Nat)
    : Result ReversePage :=
  if limit = 0 then .ok ⟨[], some cursor⟩
  else
    let scanEnd := reverseScanEnd cursor.beforeKey stop
    if endsBeforeOrAt scanEnd start then .ok ⟨[], none⟩
    else do
      let it ← p.range fuel tree start scanEnd
      let entries ← collectItems (RangeIter.next p fuel) fuel it
      let pageEntries := (entries.drop (entries.length - limit)).reverse
      let nextCursor := if limit < entries.length then
          pageEntries.getLast?.map fun e => ⟨some e.1⟩
        else none
      return ⟨pageEntries, nextCursor⟩

/-- The iterator of `prefix_page`, over the interval of the prefix. -/
def prefixIter (start : Bytes) (cursor : RangeCursor) : Result RangeIter :=
  let stop := prefixEnd start
  match cursor.afterKey with
  | some afterKey =>
    if start ≤ afterKey then p.rangeAfter fuel tree afterKey stop
    else p.range fuel tree start stop
  | none => p.range fuel tree start stop

/-- `prefix_page`. -/
def prefixPage (start : Bytes) (cursor : RangeCursor) (limit : Nat) : Result RangePage :=
  if limit = 0 then .ok ⟨[], some cursor⟩
  else do
    let it ← p.prefixIter fuel tree start cursor
    p.takePage fuel limit it

/-- `diff_page`. -/
def diffPage (base other : Tree) (cursor : RangeCursor) (stop : Option Bytes) (limit : Nat)
    : Result DiffPage :=
  if limit = 0 then .ok ⟨[], some cursor⟩
  else do
    let diffs ← p.diffFromCursor fuel base other cursor stop
    let hasMore := limit < diffs.length
    let diffs := if hasMore then diffs.take limit else diffs
    let nextCursor := if hasMore then diffs.getLast?.map fun d => ⟨some d.key⟩ else none
    return ⟨diffs, nextCursor⟩

end Manager

variable {p : Manager} {tree : Tree} {es : List Entry}

/-! ### One page -/

/-- A limit that is positive and for which a page can be allocated. -/
def PageLimit (limit : Nat) : Prop := 0 < limit ∧ VecFits entrySize limit

/-- The forward page of what is left. It names a cursor when it is full. -/
def fullPage (limit : Nat) (rest : List Entry) : RangePage :=
  ⟨rest.take limit, if limit ≤ rest.length then (rest.take limit).getLast?.map fun e => ⟨some e.1⟩
    else none⟩

/-- The loop of a forward page over an iterator that has `rest` to yield. -/
theorem takePage_eq {fuel : Nat} {it : RangeIter} {rest : List Entry}
    (h : collectItems (RangeIter.next p fuel) fuel it = .ok rest) {limit : Nat}
    (hfits : VecFits entrySize limit) :
    p.takePage fuel limit it = .ok (fullPage limit rest) := by
  rw [Manager.takePage, withCapacity, if_pos hfits, ok_bind, fullPage]
  rcases takeItems_of_collectItems h limit with ⟨hlen, htake⟩ | ⟨s, _, htake, hlen, -⟩
  · rw [htake, if_neg hlen.not_ge, take_of_length_le hlen.le]
    rfl
  · rw [htake, if_pos hlen]
    rfl

/-- A page is the beginning of what lies behind its cursor. -/
theorem Manager.rangePage_eq (h : Holds p tree.root es) (cursor : RangeCursor)
    (stop : Option Bytes) :
    Enough fun fuel => ∀ limit, PageLimit limit →
      p.rangePage fuel tree cursor stop limit =
        .ok (fullPage limit (PageRange.restrict ⟨cursor.afterKey, stop⟩ es)) := by
  refine (rangeFromCursor_eq h cursor stop).mono fun fuel hread limit ⟨hpos, hfits⟩ => ?_
  obtain ⟨it, hit, hcollect⟩ := of_bind hread
  rw [rangePage, if_neg hpos.ne', hit, ok_bind]
  exact takePage_eq hcollect hfits

/-- A backward page is the end of what lies before its cursor, backward. It names a cursor when
something is left. -/
theorem Manager.reverseRangePage_eq (h : Holds p tree.root es) (cursor : ReverseCursor)
    (start : Bytes) (stop : Option Bytes) :
    Enough fun fuel => ∀ limit, 0 < limit →
      let rest := (entriesIn start false (reverseScanEnd cursor.beforeKey stop) es).reverse
      p.reverseRangePage fuel tree cursor start stop limit = .ok ⟨rest.take limit,
        if limit < rest.length then (rest.take limit).getLast?.map fun e => ⟨some e.1⟩
        else none⟩ := by
  refine (range_eq h start (reverseScanEnd cursor.beforeKey stop)).mono
    fun fuel hread limit hlimit => ?_
  intro rest
  unfold reverseRangePage
  rw [if_neg (by omega)]
  dsimp only
  split
  · next hends =>
    have hnil : rest = [] := by
      rw [reverse_eq_nil_iff]
      exact entriesIn_eq_nil false hends es
    simp [hnil]
  · obtain ⟨it, hit, hcollect⟩ := of_bind hread
    rw [hit, ok_bind, hcollect, ok_bind, ← take_reverse]
    simp [rest]

/-- The entries with a prefix behind a cursor. -/
def prefixedBehind (start : Bytes) (after : Option Bytes) (es : List Entry) : List Entry :=
  es.filter fun e => start.isPrefixOf e.1 && (PageRange.mk after none).contains e.1

/-- The interval of a prefix, read from a key on that leaves out nothing behind the cursor. -/
theorem entriesIn_prefixEnd {start lower : Bytes} {strict : Bool} {after : Option Bytes}
    (hle : ∀ x, startsAt lower strict x = true → start ≤ x)
    (hafter : ∀ x, start ≤ x →
      (startsAt lower strict x = true ↔ (PageRange.mk after none).contains x = true))
    (es : List Entry) :
    entriesIn lower strict (prefixEnd start) es = prefixedBehind start after es := by
  refine filter_congr fun e _ => ?_
  rw [Bool.eq_iff_iff, Bool.and_eq_true, Bool.and_eq_true, isPrefixOf_iff_prefix,
    Bool.not_eq_true', ← mem_prefixEnd]
  constructor
  · rintro ⟨hstart, hend⟩
    have hlow := hle e.1 hstart
    exact ⟨⟨hlow, hend⟩, (hafter e.1 hlow).mp hstart⟩
  · rintro ⟨⟨hlow, hend⟩, hbehind⟩
    exact ⟨(hafter e.1 hlow).mpr hbehind, hend⟩

/-- `prefix_page` reads the entries with the prefix, from the first on or from a cursor among
them. -/
theorem Manager.prefixIter_eq (h : Holds p tree.root es) (start : Bytes) (cursor : RangeCursor) :
    Enough fun fuel => (p.prefixIter fuel tree start cursor >>=
      collectItems (RangeIter.next p fuel) fuel) =
        .ok (prefixedBehind start cursor.afterKey es) := by
  have hstarts : ∀ x, startsAt start false x = true ↔ start ≤ x := fun x => by simp [startsAt]
  obtain ⟨after⟩ := cursor
  cases after with
  | none =>
    have hall : entriesIn start false (prefixEnd start) es = prefixedBehind start none es :=
      entriesIn_prefixEnd (fun x => (hstarts x).mp)
        (fun x hx => by simp [(hstarts x).mpr hx, PageRange.contains]) es
    simp only [← hall]
    exact p.range_eq h start (prefixEnd start)
  | some afterKey =>
    by_cases hstart : start ≤ afterKey
    · have hstarts' : ∀ x, startsAt afterKey true x = true ↔ afterKey < x :=
        fun x => by simp [startsAt]
      have hall : entriesIn afterKey true (prefixEnd start) es =
          prefixedBehind start (some afterKey) es :=
        entriesIn_prefixEnd (fun x hx => hstart.trans ((hstarts' x).mp hx).le)
          (fun x _ => by simp [hstarts', PageRange.contains]) es
      simp only [← hall, prefixIter, if_pos hstart]
      exact p.rangeAfter_eq h afterKey (prefixEnd start)
    · -- the cursor lies before the interval
      have hbehind : ∀ x, start ≤ x → afterKey < x := fun x hx => (not_le.mp hstart).trans_le hx
      have hall : entriesIn start false (prefixEnd start) es =
          prefixedBehind start (some afterKey) es :=
        entriesIn_prefixEnd (fun x => (hstarts x).mp)
          (fun x hx => by simp [(hstarts x).mpr hx, PageRange.contains, hbehind x hx]) es
      simp only [← hall, prefixIter, if_neg hstart]
      exact p.range_eq h start (prefixEnd start)

/-- A page of a prefix names a cursor when it is full. -/
theorem Manager.prefixPage_eq (h : Holds p tree.root es) (start : Bytes) (cursor : RangeCursor) :
    Enough fun fuel => ∀ limit, PageLimit limit →
      p.prefixPage fuel tree start cursor limit =
        .ok (fullPage limit (prefixedBehind start cursor.afterKey es)) := by
  refine (prefixIter_eq h start cursor).mono fun fuel hread limit ⟨hpos, hfits⟩ => ?_
  obtain ⟨it, hit, hcollect⟩ := of_bind hread
  rw [prefixPage, if_neg hpos.ne', hit, ok_bind]
  exact takePage_eq hcollect hfits

/-- A page of differences names a cursor when something is left. -/
theorem Manager.diffPage_eq {base other : Tree} {bs os : List Entry} (hl : p.LineageSound)
    (hb : Holds p base.root bs) (ho : Holds p other.root os) (cursor : RangeCursor)
    (stop : Option Bytes) :
    Enough fun fuel => ∀ limit, 0 < limit →
      let rest := pageDiffs bs os ⟨cursor.afterKey, stop⟩
      p.diffPage fuel base other cursor stop limit = .ok ⟨rest.take limit,
        if limit < rest.length then (rest.take limit).getLast?.map fun d => ⟨some d.key⟩
        else none⟩ := by
  refine (diffFromCursor_eq hl hb ho cursor stop).mono fun fuel hread limit hlimit => ?_
  intro rest
  rw [diffPage, if_neg (by omega), hread, ok_bind]
  by_cases hmore : limit < rest.length
  · simp only [rest, hmore, if_true] at hmore ⊢
    rfl
  · rw [take_of_length_le (not_lt.mp hmore)]
    simp only [rest, hmore, if_false] at hmore ⊢
    rfl

/-! ### All pages -/

section Pages

open Paging

/-- The windows that a reader asks the four kinds of pages for. -/
structure PageWindows where
  cursor : RangeCursor
  stop : Option Bytes
  prefixed : Bytes
  prefixCursor : RangeCursor
  reverseCursor : ReverseCursor
  reverseStart : Bytes
  reverseStop : Option Bytes
  diffCursor : RangeCursor
  diffStop : Option Bytes

namespace PageWindows

variable (w : PageWindows)

/-- The entries behind the cursor of `range_page`. -/
def rangeEntries (es : List Entry) : List Entry :=
  PageRange.restrict ⟨w.cursor.afterKey, w.stop⟩ es

/-- The entries with the prefix of `prefix_page`, behind its cursor. -/
def prefixEntries (es : List Entry) : List Entry :=
  prefixedBehind w.prefixed w.prefixCursor.afterKey es

/-- The entries before the cursor of `reverse_range_page`, from the last on. -/
def reverseEntries (es : List Entry) : List Entry :=
  (entriesIn w.reverseStart false (reverseScanEnd w.reverseCursor.beforeKey w.reverseStop)
    es).reverse

/-- The differences behind the cursor of `diff_page`. -/
def diffs (bs os : List Entry) : List Diff :=
  pageDiffs bs os ⟨w.diffCursor.afterKey, w.diffStop⟩

end PageWindows

/-- Each kind of page gives a reader its whole window, and a page names a cursor if and only if a
further entry exists. -/
structure PagesConcatenate (p : Manager) (fuel : Nat) (w : PageWindows) (limits : Nat → Nat)
    (tree base other : Tree) (es bs os : List Entry) : Prop where
  range : ReadsAll (fun cursor limit => (p.rangePage fuel tree cursor w.stop limit).map
    fun page => (page.entries, page.nextCursor)) limits w.cursor (w.rangeEntries es)
  prefixed : ReadsAll (fun cursor limit => (p.prefixPage fuel tree w.prefixed cursor limit).map
    fun page => (page.entries, page.nextCursor)) limits w.prefixCursor (w.prefixEntries es)
  reverse : ReadsAll (fun cursor limit =>
    (p.reverseRangePage fuel tree cursor w.reverseStart w.reverseStop limit).map
      fun page => (page.entries, page.nextCursor)) limits w.reverseCursor (w.reverseEntries es)
  diff : ReadsAll (fun cursor limit => (p.diffPage fuel base other cursor w.diffStop limit).map
    fun page => (page.diffs, page.nextCursor)) limits w.diffCursor (w.diffs bs os)

variable {stop : Option Bytes} (first : Option Bytes)

/-- Behind an entry of a window that a cursor opens lies the window that the entry's key opens. -/
theorem filter_contains_behind {α : Type} {key : α → Bytes} {xs before after : List α} {x : α}
    (keep : α → Bool) (hs : xs.Pairwise fun a b => key a < key b)
    (h : xs.filter (fun y => keep y && (PageRange.mk first stop).contains (key y)) =
      before ++ x :: after) :
    xs.filter (fun y => keep y && (PageRange.mk (some (key x)) stop).contains (key y)) = after := by
  have hx : x ∈ xs.filter fun y => keep y && (PageRange.mk first stop).contains (key y) := by
    simp [h]
  have hfirst : ∀ a ∈ first, a < key x :=
    (PageRange.contains_iff.mp (Bool.and_eq_true _ _ ▸ (mem_filter.mp hx).2).2).1
  rw [← (filter_around hs h).1]
  refine filter_congr fun y _ => ?_
  rw [Bool.eq_iff_iff]
  simp only [Bool.and_eq_true, PageRange.contains_iff, decide_eq_true_eq, Option.mem_some_iff,
    forall_eq']
  exact ⟨fun ⟨hkeep, hlt, hstop⟩ => ⟨⟨hkeep, fun a ha => (hfirst a ha).trans hlt, hstop⟩, hlt⟩,
    fun ⟨⟨hkeep, _, hstop⟩, hlt⟩ => ⟨hkeep, hlt, hstop⟩⟩

variable {base other : Tree} {bs os : List Entry} (w : PageWindows)

/-- For any limits, pages give a reader the whole window, and the cursors tell whether an entry
follows. Where a full page names one, the limits of no first pages may add up to the window. -/
def ReadsWindow {α κ : Type} (eager : Prop) (page : Nat → κ → Nat → Result (List α × Option κ))
    (first : κ) (window : List α) : Prop :=
  Enough fun fuel => ∀ limits : Nat → Nat, (∀ i, PageLimit (limits i)) →
    (ReadsAll (page fuel) limits first window ↔
      (eager → ∀ k, budget limits 0 (k + 1) ≠ window.length))

theorem readsAll_range (h : Holds p tree.root es) :
    ReadsWindow True (fun fuel cursor limit => (p.rangePage fuel tree cursor w.stop limit).map
      fun page => (page.entries, page.nextCursor)) w.cursor (w.rangeEntries es) := by
  refine readsAll_iff_of_windows (fun _ h => h.1) True
    (fun cursor : RangeCursor => PageRange.restrict ⟨cursor.afterKey, w.stop⟩ es)
    (fun e => ⟨some e.1⟩) w.cursor (fun cursor => ?_) fun before e after hall => ?_
  · refine (p.rangePage_eq h cursor w.stop).mono fun fuel hpage limit hlimit => ?_
    rw [hpage limit hlimit]
    simp only [fullPage, true_and, ← le_iff_lt_or_eq]
    rfl
  · exact filter_contains_behind _ (fun _ => true) h.sorted hall

theorem readsAll_prefixed (h : Holds p tree.root es) :
    ReadsWindow True (fun fuel cursor limit => (p.prefixPage fuel tree w.prefixed cursor limit).map
      fun page => (page.entries, page.nextCursor)) w.prefixCursor (w.prefixEntries es) := by
  refine readsAll_iff_of_windows (fun _ h => h.1) True
    (fun cursor : RangeCursor => prefixedBehind w.prefixed cursor.afterKey es)
    (fun e => ⟨some e.1⟩) w.prefixCursor (fun cursor => ?_) fun before e after hall => ?_
  · refine (p.prefixPage_eq h w.prefixed cursor).mono fun fuel hpage limit hlimit => ?_
    rw [hpage limit hlimit]
    simp only [fullPage, true_and, ← le_iff_lt_or_eq]
    rfl
  · exact filter_contains_behind _ _ h.sorted hall

theorem readsAll_diff (hl : p.LineageSound) (hb : Holds p base.root bs)
    (ho : Holds p other.root os) :
    ReadsWindow False (fun fuel cursor limit =>
      (p.diffPage fuel base other cursor w.diffStop limit).map
        fun page => (page.diffs, page.nextCursor)) w.diffCursor (w.diffs bs os) := by
  refine readsAll_iff_of_windows (fun _ h => h.1) False
    (fun cursor : RangeCursor => pageDiffs bs os ⟨cursor.afterKey, w.diffStop⟩)
    (fun d => ⟨some d.key⟩) w.diffCursor (fun cursor => ?_) fun before d after hall => ?_
  · refine (p.diffPage_eq hl hb ho cursor w.diffStop).mono fun fuel hpage limit hlimit => ?_
    rw [hpage limit hlimit.1]
    simp only [false_and, or_false]
    rfl
  · exact filter_contains_behind _ (fun _ => true)
      (SortedAssoc.diff_sorted hb.sorted ho.sorted) hall

/-- A key before the end of a backward scan is before its cursor and before the end of the
range. -/
theorem ends_reverseScanEnd {first : Option Bytes} {key : Bytes} :
    endsBeforeOrAt (reverseScanEnd first stop) key = false ↔
      (∀ before ∈ first, key < before) ∧ ∀ stop' ∈ stop, key < stop' := by
  cases first <;> cases stop <;> simp [reverseScanEnd, endsBeforeOrAt]

/-- Before an entry of the window of `reverse_range_page` lies the window that the entry's key
closes. -/
theorem entriesIn_reverse_behind (hs : Sorted es) {start : Bytes} {before after : List Entry}
    {e : Entry}
    (h : (entriesIn start false (reverseScanEnd first stop) es).reverse = before ++ e :: after) :
    (entriesIn start false (reverseScanEnd (some e.1) stop) es).reverse = after := by
  have hall : entriesIn start false (reverseScanEnd first stop) es =
      after.reverse ++ e :: before.reverse := by
    rw [← reverse_inj, h]
    simp
  have he : e ∈ entriesIn start false (reverseScanEnd first stop) es := by simp [hall]
  have hends : endsBeforeOrAt (reverseScanEnd first stop) e.1 = false := by
    have hkeep := (mem_filter.mp he).2
    rw [Bool.and_eq_true, Bool.not_eq_true'] at hkeep
    exact hkeep.2
  have hfirst := (ends_reverseScanEnd.mp hends).1
  rw [reverse_eq_iff, ← (filter_around hs hall).2]
  refine filter_congr fun e' _ => ?_
  rw [Bool.eq_iff_iff]
  simp only [Bool.and_eq_true, Bool.not_eq_true', ends_reverseScanEnd, decide_eq_true_eq,
    Option.mem_some_iff, forall_eq']
  exact ⟨fun ⟨hstart, hlt, hstop⟩ => ⟨⟨hstart, fun b hb => hlt.trans (hfirst b hb), hstop⟩, hlt⟩,
    fun ⟨⟨hstart, _, hstop⟩, hlt⟩ => ⟨hstart, hlt, hstop⟩⟩

theorem readsAll_reverse (h : Holds p tree.root es) :
    ReadsWindow False (fun fuel cursor limit =>
      (p.reverseRangePage fuel tree cursor w.reverseStart w.reverseStop limit).map
        fun page => (page.entries, page.nextCursor)) w.reverseCursor (w.reverseEntries es) := by
  refine readsAll_iff_of_windows (fun _ h => h.1) False
    (fun cursor : ReverseCursor => (entriesIn w.reverseStart false
      (reverseScanEnd cursor.beforeKey w.reverseStop) es).reverse)
    (fun e => ⟨some e.1⟩) w.reverseCursor (fun cursor => ?_) fun before e after hall => ?_
  · refine (p.reverseRangePage_eq h cursor w.reverseStart w.reverseStop).mono
      fun fuel hpage limit hlimit => ?_
    rw [hpage limit hlimit.1]
    simp only [false_and, or_false]
    rfl
  · exact entriesIn_reverse_behind _ h.sorted hall

/-- Pages of every kind concatenate to the windows they are asked for, for any limits. The cursors
tell whether an entry follows unless the limits of some first pages add up to a forward window. -/
theorem pagesConcatenate_iff (hl : p.Recorded) (h : Holds p tree.root es)
    (hb : Holds p base.root bs) (ho : Holds p other.root os) :
    Enough fun fuel => ∀ limits : Nat → Nat, (∀ i, PageLimit (limits i)) →
      (PagesConcatenate p fuel w limits tree base other es bs os ↔
        (∀ k, budget limits 0 (k + 1) ≠ (w.rangeEntries es).length) ∧
          ∀ k, budget limits 0 (k + 1) ≠ (w.prefixEntries es).length) := by
  have hpages := ((readsAll_range w h).and (readsAll_prefixed w h)).and
    ((readsAll_reverse w h).and (readsAll_diff w hl.lineageSound hb ho))
  refine hpages.mono fun fuel ⟨⟨hrange, hpre⟩, hreverse, hdiff⟩ limits hlimits => ?_
  constructor
  · intro hall
    exact ⟨(hrange limits hlimits).mp hall.range trivial,
      (hpre limits hlimits).mp hall.prefixed trivial⟩
  · rintro ⟨hr, hp⟩
    exact ⟨(hrange limits hlimits).mpr fun _ => hr, (hpre limits hlimits).mpr fun _ => hp,
      (hreverse limits hlimits).mpr nofun, (hdiff limits hlimits).mpr nofun⟩

end Pages

section

open Reversed Paging

/-- The whole of a tree forward and backward, its entries with the prefix `b`, and a whole diff. -/
def Reversed.windows : PageWindows := ⟨⟨none⟩, none, [98], ⟨none⟩, ⟨none⟩, [], none, ⟨none⟩, none⟩

/-- Pages of two entries over `{a, b, c}`, and of two differences from it to `{u, a}`. -/
theorem pagesConcatenate_twos : Enough fun fuel => PagesConcatenate manager fuel windows
    (fun _ => 2) abc abc ua [a, b, c] [a, b, c] [u, a] := by
  refine (pagesConcatenate_iff windows (.fresh rfl) holds_abc holds_abc holds_ua).mono
    fun fuel hiff => (hiff (fun _ => 2) fun _ => ⟨by decide, by decide⟩).mpr ?_
  have hrange : (windows.rangeEntries [a, b, c]).length = 3 := by decide
  have hpre : (windows.prefixEntries [a, b, c]).length = 1 := by decide
  rw [hrange, hpre]
  constructor <;> intro k <;> rw [budget_const] <;> omega

/-- A page of three entries holds all of `{a, b, c}` and still names a cursor. -/
theorem pagesConcatenate_fails : Enough fun fuel =>
    manager.rangePage fuel abc ⟨none⟩ none 3 = .ok ⟨[a, b, c], some ⟨some c.1⟩⟩ ∧
    ¬PagesConcatenate manager fuel windows (fun _ => 3) abc abc ua [a, b, c] [a, b, c] [u, a] := by
  have hpage := manager.rangePage_eq holds_abc ⟨none⟩ none
  refine (hpage.and (readsAll_range windows holds_abc)).mono fun fuel ⟨hpage, hrange⟩ => ⟨?_, ?_⟩
  · rw [hpage 3 ⟨by decide, by decide⟩]
    rfl
  · intro h
    exact (hrange (fun _ => 3) fun _ => ⟨by decide, by decide⟩).mp h.range trivial 0 rfl

end

end Prolly

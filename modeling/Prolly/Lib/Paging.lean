import Mathlib.Data.Nat.Basic
import Prolly.Lib.StackLoop

/-!
# Pages

A listing handed out page by page. A page tells where the next one starts, and a reader follows
these positions until there is none (`pages`). Positions are often named by the last entry that was
handed out (`Left`).

Sources that fill their pages (`PagesBy`) give a reader the whole listing, whatever the limits of
the pages are. They differ in what they say when a page ends where the listing ends: an eager one
still names a position. The pages of the others tell the reader whether anything follows
(`Concatenates`), those of an eager one do so unless the limits of the first pages add up to the
listing (`PagesBy.readsAll_iff`).
-/

namespace Paging

open List

variable {κ α ε : Type*}

variable {page : κ → Nat → Except ε (List α × Option κ)} {Rest : κ → List α → Prop}

/-! ### Positions named by entries -/

/-- What is left at a position: everything at the first, and what follows an entry at the position
that it names. -/
inductive Left (all : List α) (name : α → κ) (first : κ) : κ → List α → Prop
  | start : Left all name first first all
  | behind {before after : List α} {e : α} : all = before ++ e :: after →
      Left all name first (name e) after

variable {all rest : List α} {name : α → κ} {first position : κ} (items : List α)
  {limits : Nat → Nat} {fuel i : Nat}

theorem Left.suffix (h : Left all name first position rest) : rest <:+ all := by
  cases h with
  | start => exact suffix_rfl
  | behind hall =>
    rw [hall, append_cons]
    exact suffix_append _ _

/-- Behind the last entry of a page is the rest without the page. -/
theorem Left.drop (h : Left all name first position rest) {n : Nat} {e : α}
    (hlast : (rest.take n).getLast? = some e) : Left all name first (name e) (rest.drop n) := by
  obtain ⟨before, hall⟩ := h.suffix
  obtain ⟨page, hpage⟩ := getLast?_eq_some_iff.mp hlast
  have hrest : rest = page ++ e :: rest.drop n := by
    rw [append_cons, ← hpage, take_append_drop]
  have hsplit : all = (before ++ page) ++ e :: rest.drop n := by
    rw [← hall, append_assoc, ← hrest]
  exact .behind hsplit

/-! ### The pages of a listing -/

/-- Reads pages until no position is given, with a limit for each; nothing when `fuel` pages were
not enough. -/
def pages (page : κ → Nat → Except ε (List α × Option κ)) (limits : Nat → Nat) :
    Nat → Nat → κ → Option (Except ε (List (List α × Option κ)))
  | 0, _, _ => none
  | fuel + 1, i, position =>
    match page position (limits i) with
    | .error error => some (.error error)
    | .ok (items, none) => some (.ok [(items, none)])
    | .ok (items, some next) =>
      (pages page limits fuel (i + 1) next).map fun rest => rest.map ((items, some next) :: ·)

/-- The pages hold the listing in its order, each entry once, and a page names a position if and
only if a further entry exists. -/
structure Concatenates (ps : List (List α × Option κ)) (all : List α) : Prop where
  items : (ps.map Prod.fst).flatten = all
  next : ∀ before p after, ps = before ++ p :: after →
    (p.2.isSome ↔ (after.map Prod.fst).flatten ≠ [])

theorem concatenates_last : Concatenates [(items, (none : Option κ))] items where
  items := by simp
  next := by
    intro before p after h
    obtain ⟨rfl, h⟩ | ⟨before, rfl, h⟩ := cons_eq_append_iff.mp h
    · obtain ⟨rfl, rfl⟩ := cons.inj h
      simp
    · simp at h

/-- A page goes before pages that hold everything left behind it. -/
theorem concatenates_cons (next : Option κ) {rest : List α} {ps : List (List α × Option κ)}
    (hps : (ps.map Prod.fst).flatten = rest) :
    Concatenates ((items, next) :: ps) (items ++ rest) ↔
      (next.isSome ↔ rest ≠ []) ∧ Concatenates ps rest := by
  constructor
  · rintro ⟨-, hnext⟩
    refine ⟨hps ▸ hnext [] _ _ rfl, hps, fun before p after h => ?_⟩
    exact hnext (_ :: before) p after (congrArg _ h)
  · rintro ⟨hfirst, -, hnext⟩
    refine ⟨by simp [hps], fun before p after h => ?_⟩
    obtain ⟨rfl, h⟩ | ⟨before, rfl, h⟩ := cons_eq_append_iff.mp h
    · obtain ⟨rfl, rfl⟩ := cons.inj h
      rw [hps]
      exact hfirst
    · exact hnext before p after (cons.inj h).2

/-- A reader who follows the positions from `first` on gets `all`, and at each page knows whether
anything follows. -/
def ReadsAll (page : κ → Nat → Except ε (List α × Option κ)) (limits : Nat → Nat) (first : κ)
    (all : List α) : Prop :=
  ∃ fuel ps, pages page limits fuel 0 first = some (.ok ps) ∧ Concatenates ps all

/-- More calls than are needed change nothing. -/
theorem pages_mono {fuel' : Nat} {ps : Except ε (List (List α × Option κ))}
    (h : pages page limits fuel i position = some ps) (hle : fuel ≤ fuel') :
    pages page limits fuel' i position = some ps := by
  induction fuel generalizing fuel' i position ps with
  | zero => cases h
  | succ fuel ih =>
    obtain _ | fuel' := fuel'
    · omega
    rw [pages] at h ⊢
    cases hpage : page position (limits i) with
    | error error => simpa [hpage] using h
    | ok result =>
      obtain ⟨items, next⟩ := result
      cases next with
      | none => simpa [hpage] using h
      | some next =>
        simp only [hpage] at h ⊢
        obtain ⟨rest, hrest, rfl⟩ := Option.map_eq_some_iff.mp h
        rw [ih hrest (by omega), Option.map_some]

/-- What the pages from the `i`-th on may hold, `k` of them together. -/
def budget (limits : Nat → Nat) (i : Nat) : Nat → Nat
  | 0 => 0
  | k + 1 => limits i + budget limits (i + 1) k

theorem budget_const (limit i k : Nat) : budget (fun _ => limit) i k = limit * k := by
  induction k generalizing i with
  | zero => rfl
  | succ k ih => rw [budget, ih, Nat.mul_succ, Nat.add_comm]

/-- The page at a position where `rest` is left, from a source that fills its pages, for the limits
it can be asked for. It names a position when something is left and, if the source is `eager`, also
when the page ends where the listing ends. -/
def PagesBy (page : κ → Nat → Except ε (List α × Option κ)) (Rest : κ → List α → Prop)
    (Asks : Nat → Prop) (eager : Prop) : Prop :=
  ∀ position rest limit, Rest position rest → Asks limit →
    ∃ next, page position limit = .ok (rest.take limit, next) ∧
      (next.isSome ↔ limit < rest.length ∨ eager ∧ limit = rest.length) ∧
      ∀ position', next = some position' → Rest position' (rest.drop limit)

variable {eager : Prop} {Asks : Nat → Prop} (hpos : ∀ limit, Asks limit → 0 < limit)
include hpos

/-- The reader gets the listing. The pages tell where it ends unless an eager source meets the end
at the end of a page. -/
theorem PagesBy.exists_pages (h : PagesBy page Rest Asks eager) (hlimits : ∀ i, Asks (limits i))
    (hrest : Rest position rest) (hfuel : rest.length < fuel) :
    ∃ ps, pages page limits fuel i position = some (.ok ps) ∧ (ps.map Prod.fst).flatten = rest ∧
      (Concatenates ps rest ↔ (eager → ∀ k, budget limits i (k + 1) ≠ rest.length)) := by
  induction fuel generalizing position rest i with
  | zero => omega
  | succ fuel ih =>
    obtain ⟨next, hpage, hsome, hnext⟩ := h position rest (limits i) hrest (hlimits i)
    have hpos := hpos _ (hlimits i)
    rw [pages, hpage]
    cases next with
    | none =>
      have hlt : ¬limits i < rest.length := fun hlt => nomatch hsome.mpr (.inl hlt)
      have hne : eager → limits i ≠ rest.length := fun he heq => nomatch hsome.mpr (.inr ⟨he, heq⟩)
      have htake : rest.take (limits i) = rest := take_of_length_le (not_lt.mp hlt)
      refine ⟨_, rfl, by simp [htake], fun _ he k => ?_, fun _ => ?_⟩
      · have := hne he
        rw [budget]
        omega
      · rw [htake]
        exact concatenates_last rest
    | some position' =>
      have hle : limits i ≤ rest.length := by
        rcases hsome.mp rfl with hlt | ⟨-, heq⟩
        · exact hlt.le
        · exact heq.le
      have hlen : (rest.drop (limits i)).length = rest.length - limits i := length_drop
      obtain ⟨ps, hps, hitems, hconcat⟩ := ih (i := i + 1) (hnext position' rfl) (by omega)
      refine ⟨(rest.take (limits i), some position') :: ps, ?_, ?_, ?_⟩
      · simp only [hps, Option.map_some, Except.map]
      · rw [map_cons, flatten_cons, hitems, take_append_drop]
      · have hcons := concatenates_cons (rest.take (limits i)) (some position') hitems
        rw [take_append_drop] at hcons
        rw [hcons, hconcat, hlen]
        constructor
        · rintro ⟨hmore, hbehind⟩ he k
          have hne : rest.drop (limits i) ≠ [] := hmore.mp rfl
          rw [Ne, drop_eq_nil_iff, not_le] at hne
          cases k with
          | zero =>
            rw [budget, budget]
            omega
          | succ k =>
            have := hbehind he k
            rw [budget]
            omega
        · intro hall
          have hne : limits i < rest.length := by
            rcases hsome.mp rfl with hlt | ⟨he, heq⟩
            · exact hlt
            · exact absurd heq (hall he 0)
          refine ⟨⟨fun _ => by simpa using hne, fun _ => rfl⟩, fun he k => ?_⟩
          have := hall he (k + 1)
          rw [budget] at this
          omega

theorem PagesBy.readsAll_iff (h : PagesBy page Rest Asks eager) (hlimits : ∀ i, Asks (limits i))
    (hrest : Rest position rest) :
    ReadsAll page limits position rest ↔ (eager → ∀ k, budget limits 0 (k + 1) ≠ rest.length) := by
  obtain ⟨ps, hps, -, hiff⟩ := h.exists_pages hpos hlimits hrest (i := 0) (Nat.lt_succ_self _)
  rw [← hiff]
  constructor
  · rintro ⟨fuel, ps', hps', hconcat⟩
    -- both runs read the same pages
    have hsame := (pages_mono hps (Nat.le_max_left _ fuel)).symm.trans
      (pages_mono hps' (Nat.le_max_right _ fuel))
    obtain rfl : ps = ps' := Except.ok.inj (Option.some.inj hsame)
    exact hconcat
  · exact fun hconcat => ⟨_, ps, hps, hconcat⟩

omit hpos

/-- A page that decodes the next entries of a listing, one after the other. -/
def DecodesBy {β : Type*} (page : κ → Nat → Except ε (List β × Option κ))
    (Rest : κ → List α → Prop) (decode : α → Except ε β) : Prop :=
  ∀ position rest limit, Rest position rest → 0 < limit →
    (∃ error, (rest.take limit).mapM decode = .error error ∧ page position limit = .error error) ∨
    ∃ items next, (rest.take limit).mapM decode = .ok items ∧ page position limit =
      .ok (items, next) ∧ (next.isSome ↔ limit < rest.length) ∧
      ∀ position', next = some position' → Rest position' (rest.drop limit)

/-- The pages together decode the listing. -/
theorem DecodesBy.exists_pages {β : Type*} {page : κ → Nat → Except ε (List β × Option κ)}
    {decode : α → Except ε β} (h : DecodesBy page Rest decode) (hlimits : ∀ i, 0 < limits i)
    (hrest : Rest position rest) (hfuel : rest.length < fuel) :
    ∃ walk, pages page limits fuel i position = some walk ∧
      walk.map (fun ps => (ps.map Prod.fst).flatten) = rest.mapM decode := by
  induction fuel generalizing position rest i with
  | zero => omega
  | succ fuel ih =>
    have hsplit : rest.mapM decode = do
        let items ← (rest.take (limits i)).mapM decode
        return items ++ (← (rest.drop (limits i)).mapM decode) := by
      rw [← mapM_append, take_append_drop]
    obtain ⟨error, htake, hpage⟩ | ⟨items, next, htake, hpage, hsome, hnext⟩ :=
      h position rest (limits i) hrest (hlimits i)
    · refine ⟨.error error, by rw [pages, hpage], ?_⟩
      rw [hsplit, htake]
      rfl
    · rw [pages, hpage]
      cases next with
      | none =>
        have hlen : rest.length ≤ limits i := not_lt.mp fun hlt => nomatch hsome.mpr hlt
        rw [take_of_length_le hlen] at htake
        exact ⟨.ok [(items, none)], rfl, by simp [htake, Except.map]⟩
      | some position' =>
        have hpos := hlimits i
        have hlt := hsome.mp rfl
        have hlen : (rest.drop (limits i)).length < fuel := by
          rw [length_drop]
          omega
        obtain ⟨walk, hwalk, hitems⟩ := ih (i := i + 1) (hnext position' rfl) hlen
        refine ⟨walk.map ((items, some position') :: ·), by simp only [hwalk, Option.map_some], ?_⟩
        rw [hsplit, htake, ← hitems]
        cases walk with
        | error error => rfl
        | ok ps => rfl

include hpos

/-- Pages that name the position of their last entry. -/
theorem PagesBy.of_left [Decidable eager] (hpage : ∀ position rest limit,
      Left all name first position rest → Asks limit →
      page position limit = .ok (rest.take limit,
        if limit < rest.length ∨ eager ∧ limit = rest.length then
          (rest.take limit).getLast?.map name
        else none)) :
    PagesBy page (Left all name first) Asks eager := by
  intro position rest limit hrest hlimit
  refine ⟨_, hpage position rest limit hrest hlimit, ?_, fun position' hnext => ?_⟩
  · split
    · next hmore =>
      have hne : rest.take limit ≠ [] := by
        rw [Ne, take_eq_nil_iff, not_or]
        have := hpos limit hlimit
        refine ⟨this.ne', ne_nil_of_length_pos ?_⟩
        omega
      rw [getLast?_eq_getLast_of_ne_nil hne]
      simpa using hmore
    · next hmore => simpa using hmore
  · split at hnext
    · obtain ⟨e, hlast, rfl⟩ := Option.map_eq_some_iff.mp hnext
      exact hrest.drop hlast
    · cases hnext

/-- Pages over windows: what is left behind an entry is the window at the position it names. -/
theorem readsAll_iff_of_windows (eager : Prop) [Decidable eager] (window : κ → List α)
    (name : α → κ) (first : κ) {page : Nat → κ → Nat → Except ε (List α × Option κ)}
    (hpage : ∀ position, Enough fun fuel => ∀ limit, Asks limit →
      page fuel position limit = .ok ((window position).take limit,
        if limit < (window position).length ∨ eager ∧ limit = (window position).length then
          ((window position).take limit).getLast?.map name
        else none))
    (hbehind : ∀ before e after, window first = before ++ e :: after → window (name e) = after) :
    Enough fun fuel => ∀ limits : Nat → Nat, (∀ i, Asks (limits i)) →
      (ReadsAll (page fuel) limits first (window first) ↔
        (eager → ∀ k, budget limits 0 (k + 1) ≠ (window first).length)) := by
  -- the positions that a reader can get share one bound
  have hpages := Enough.forall_mem fun position
    (_ : position ∈ first :: (window first).map name) => hpage position
  refine hpages.mono fun fuel hfuel limits hlimits => ?_
  have hby : PagesBy (page fuel) (Left (window first) name first) Asks eager := by
    refine .of_left hpos fun position rest limit hleft hlimit => ?_
    obtain ⟨hmem, rfl⟩ : position ∈ first :: (window first).map name ∧ window position = rest := by
      cases hleft with
      | start => exact ⟨mem_cons_self, rfl⟩
      | @behind before after e hall =>
        have he : e ∈ window first := by simp [hall]
        exact ⟨.tail _ (mem_map_of_mem he), hbehind before e rest hall⟩
    exact hfuel position hmem limit hlimit
  exact hby.readsAll_iff hpos hlimits .start

omit hpos

/-! ### Sorted listings -/

section Sorted

variable {β : Type*} [LinearOrder β] {key : α → β} {xs before after : List α} {x : α}
  {keep : α → Bool}

/-- Behind an entry of a window lie the entries of the window with larger keys, and before it
those with smaller keys. -/
theorem filter_around (hs : xs.Pairwise fun a b => key a < key b)
    (h : xs.filter keep = before ++ x :: after) :
    xs.filter (fun y => keep y && decide (key x < key y)) = after ∧
      xs.filter (fun y => keep y && decide (key y < key x)) = before := by
  obtain ⟨-, hafter, hbefore⟩ := pairwise_append.mp (h ▸ hs.filter keep)
  have hlt : ∀ y ∈ before, key y < key x := fun y hy => hbefore y hy x mem_cons_self
  have hgt : ∀ y ∈ after, key x < key y := (pairwise_cons.mp hafter).1
  simp only [Bool.and_comm (keep _), ← filter_filter, h, filter_append]
  constructor
  · rw [filter_cons_of_neg (by simp), filter_eq_nil_iff.mpr
      (by simpa using fun y hy => (hlt y hy).le),
      filter_eq_self.mpr (by simpa using hgt), nil_append]
  · rw [filter_cons_of_neg (by simp), filter_eq_self.mpr (by simpa using hlt),
      filter_eq_nil_iff.mpr (by simpa using fun y hy => (hgt y hy).le), append_nil]

end Sorted

end Paging

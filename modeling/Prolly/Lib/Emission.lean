import Mathlib.Data.List.Basic
import Mathlib.Data.List.Induction

/-!
# Prolly.Lib.Emission

Emitters: machines that take elements one by one and emit them as consecutive chunks. An emitter is
memoryless if nothing but the open chunk decides what it does: an empty one is as good as a fresh
one, and where an element ends the chunk before it, the element goes on as the first of a fresh
emitter.

The chunks of a list are then a local matter. They are those lists of chunks in which each chunk is
cut from the first element of the next (`complete_eq_ok`), so a run may be taken up at any cut
(`Chained.complete_append`) and at any point where the emitter is empty (`complete_append_ok`).
-/

namespace Emission

open List

variable {S α β ε : Type}

/-- An emitter with its fresh state and what it emits for a chunk. -/
structure Emitter (S α β ε : Type) where
  fresh : S
  push : S → α → Except ε (List β × S)
  finish : S → Except ε (List β)
  node : List α → β

namespace Emitter

variable (m : Emitter S α β ε)

/-- A loop of pushes. -/
def feed : S → List α → Except ε (List β × S)
  | s, [] => .ok ([], s)
  | s, x :: xs =>
    (m.push s x).bind fun r => (feed r.2 xs).map fun r' => (r.1 ++ r'.1, r'.2)

/-- A loop of pushes and the end. -/
def complete (s : S) (xs : List α) : Except ε (List β) :=
  (m.feed s xs).bind fun r => (m.finish r.2).map (r.1 ++ ·)

/-- The emitter ends the chunk `c` and goes on with `x` as a fresh one would. -/
def Cuts (c : List α) (x : α) : Prop :=
  m.feed m.fresh (c ++ [x]) = (m.feed m.fresh [x]).map fun r => (m.node c :: r.1, r.2)

/-- Chunks of which each is cut from the next. -/
def Chained : List (List α) → Prop
  | [] => True
  | [c] => c ≠ [] ∧ m.complete m.fresh c = .ok [m.node c]
  | c :: c' :: chunks => c ≠ [] ∧ (∀ x ∈ c'.head?, m.Cuts c x) ∧ Chained (c' :: chunks)

/-- Nothing but the open chunk decides what the emitter does. -/
structure Memoryless : Prop where
  push : ∀ {xs : List α} {s s' : S} {x : α} {out : List β}, m.feed m.fresh xs = .ok ([], s) →
    m.push s x = .ok (out, s') →
    out = [] ∨ (out = [m.node (xs ++ [x])] ∧ s' = m.fresh) ∨
      (xs ≠ [] ∧ ∃ rest, out = m.node xs :: rest ∧ m.push m.fresh x = .ok (rest, s'))
  finish : ∀ {xs : List α} {s : S} {out : List β}, m.feed m.fresh xs = .ok ([], s) → xs ≠ [] →
    m.finish s = .ok out → out = [m.node xs]
  finish_fresh : m.finish m.fresh = .ok []

variable {m} {s s' : S} {xs ys c : List α} {out : List β} {x : α} {chunks pre post : List (List α)}

/-! ### Loops -/

@[simp] theorem feed_nil (s : S) : m.feed s [] = .ok ([], s) := rfl

theorem feed_singleton (s : S) (x : α) : m.feed s [x] = m.push s x := by
  rw [feed]
  cases m.push s x <;> simp [Except.bind, Except.map]

theorem feed_append (s : S) (xs ys : List α) :
    m.feed s (xs ++ ys) =
      (m.feed s xs).bind fun r => (m.feed r.2 ys).map fun r' => (r.1 ++ r'.1, r'.2) := by
  induction xs generalizing s with
  | nil =>
    show m.feed s ys = (m.feed s ys).map fun r' => ([] ++ r'.1, r'.2)
    cases m.feed s ys <;> rfl
  | cons x xs ih =>
    rw [cons_append, feed, feed]
    cases m.push s x with
    | error error => rfl
    | ok r =>
      show (m.feed r.2 (xs ++ ys)).map _ = ((m.feed r.2 xs).map _).bind _
      rw [ih]
      cases m.feed r.2 xs with
      | error error => rfl
      | ok r1 =>
        show ((m.feed r1.2 ys).map _).map _ = (m.feed r1.2 ys).map _
        cases m.feed r1.2 ys with
        | error error => rfl
        | ok r2 => simp [Except.map]

theorem feed_append_ok (h : m.feed s xs = .ok (out, s')) :
    m.feed s (xs ++ ys) = (m.feed s' ys).map fun r => (out ++ r.1, r.2) := by
  rw [feed_append, h]
  rfl

/-- Emitters that go through related states emit the same. -/
theorem complete_congr {T : Type} {m' : Emitter T α β ε} (related : S → T → Prop)
    (hpush : ∀ {s t}, ∀ x ∈ xs, related s t →
      (∃ error, m.push s x = .error error ∧ m'.push t x = .error error) ∨
        ∃ out s' t', m.push s x = .ok (out, s') ∧ m'.push t x = .ok (out, t') ∧ related s' t')
    (hfinish : ∀ {s t}, related s t → m.finish s = m'.finish t) {t : T} (h : related s t) :
    m.complete s xs = m'.complete t xs := by
  induction xs generalizing s t with
  | nil =>
    show (m.finish s).map _ = (m'.finish t).map _
    rw [hfinish h]
  | cons x xs ih =>
    unfold complete
    rw [feed, feed]
    rcases hpush x mem_cons_self h with
      ⟨error, hs, ht⟩ | ⟨out, s', t', hs, ht, h'⟩
    · rw [hs, ht]
      rfl
    · rw [hs, ht]
      have hrest := ih (fun y hy => hpush y (.tail _ hy)) h'
      have hlift : ∀ {U : Type} (n : Emitter U α β ε) (u : U),
          (((n.feed u xs).map fun r' => (out ++ r'.1, r'.2)).bind fun r =>
            (n.finish r.2).map (r.1 ++ ·)) = (n.complete u xs).map (out ++ ·) := by
        intro U n u
        unfold complete
        cases n.feed u xs with
        | error error => rfl
        | ok r =>
          show (n.finish r.2).map _ = ((n.finish r.2).map _).map _
          cases n.finish r.2 with
          | error error => rfl
          | ok last => exact congrArg Except.ok (append_assoc ..)
      exact (hlift m s').trans ((congrArg _ hrest).trans (hlift m' t').symm)

/-- What holds of everything that is emitted by a push or at the end. -/
theorem forall_of_complete {good : β → Prop}
    (hpush : ∀ {s x out s'}, m.push s x = .ok (out, s') → ∀ b ∈ out, good b)
    (hfinish : ∀ {s out}, m.finish s = .ok out → ∀ b ∈ out, good b)
    (h : m.complete s xs = .ok out) : ∀ b ∈ out, good b := by
  have hfeed : ∀ {xs s out s'}, m.feed s xs = .ok (out, s') → ∀ b ∈ out, good b := by
    intro xs
    induction xs with
    | nil =>
      intro s out s' h
      cases h
      simp
    | cons x xs ih =>
      intro s out s' h
      rw [feed] at h
      cases hx : m.push s x with
      | error error =>
        rw [hx] at h
        cases h
      | ok r =>
        cases hxs : m.feed r.2 xs with
        | error error =>
          rw [hx, Except.bind, hxs] at h
          cases h
        | ok r' =>
          rw [hx, Except.bind, hxs] at h
          cases h
          exact forall_mem_append.mpr ⟨hpush hx, ih hxs⟩
  unfold complete at h
  cases hxs : m.feed s xs with
  | error error =>
    rw [hxs] at h
    cases h
  | ok r =>
    cases hlast : m.finish r.2 with
    | error error =>
      rw [hxs, Except.bind, hlast] at h
      cases h
    | ok last =>
      rw [hxs, Except.bind, hlast] at h
      cases h
      exact forall_mem_append.mpr ⟨hfeed hxs, hfinish hlast⟩

/-- A chunk that is open at the end was open before. -/
theorem feed_concat_nil (h : m.feed s (xs ++ [x]) = .ok ([], s')) :
    ∃ s1, m.feed s xs = .ok ([], s1) ∧ m.push s1 x = .ok ([], s') := by
  rw [feed_append] at h
  cases hxs : m.feed s xs with
  | error error =>
    rw [hxs] at h
    cases h
  | ok r =>
    obtain ⟨out, s1⟩ := r
    rw [hxs] at h
    cases hx : m.push s1 x with
    | error error =>
      rw [Except.bind, feed_singleton, hx] at h
      cases h
    | ok r' =>
      rw [Except.bind, feed_singleton, hx] at h
      obtain ⟨hnil, rfl⟩ := Prod.mk.inj (Except.ok.inj h)
      obtain ⟨rfl, hrest⟩ := append_eq_nil_iff.mp hnil
      exact ⟨s1, rfl, hx.trans (congrArg Except.ok (Prod.ext hrest rfl))⟩

theorem complete_append_ok (h : m.feed s xs = .ok (out, s')) :
    m.complete s (xs ++ ys) = (m.complete s' ys).map (out ++ ·) := by
  rw [complete, complete, feed_append_ok h]
  cases m.feed s' ys with
  | error error => rfl
  | ok r =>
    show (m.finish r.2).map _ = ((m.finish r.2).map _).map _
    cases m.finish r.2 with
    | error error => rfl
    | ok last => simp [Except.map]

theorem complete_append_error {error : ε} (h : m.feed s xs = .error error) :
    m.complete s (xs ++ ys) = .error error := by
  rw [complete, feed_append, h]
  rfl

/-- A run that succeeds has done so up to any point and from there on. -/
theorem complete_append_eq_ok (h : m.complete s (xs ++ ys) = .ok out) :
    ∃ out1 s' out2, m.feed s xs = .ok (out1, s') ∧ m.complete s' ys = .ok out2 ∧
      out = out1 ++ out2 := by
  cases hxs : m.feed s xs with
  | error error =>
    rw [complete_append_error hxs] at h
    cases h
  | ok r =>
    obtain ⟨out1, s'⟩ := r
    rw [complete_append_ok hxs] at h
    cases hys : m.complete s' ys with
    | error error =>
      rw [hys] at h
      cases h
    | ok out2 =>
      rw [hys] at h
      cases h
      exact ⟨out1, s', out2, rfl, hys, rfl⟩

theorem complete_cons (h : m.push s x = .ok (out, s')) :
    m.complete s (x :: xs) = (m.complete s' xs).map (out ++ ·) := by
  rw [← feed_singleton] at h
  exact complete_append_ok h

/-! ### Cuts -/

theorem Cuts.complete (h : m.Cuts c x) (xs : List α) :
    m.complete m.fresh (c ++ x :: xs) = (m.complete m.fresh (x :: xs)).map (m.node c :: ·) := by
  rw [append_cons, show x :: xs = [x] ++ xs from rfl]
  unfold Cuts at h
  cases hx : m.feed m.fresh [x] with
  | error error =>
    rw [hx] at h
    rw [complete_append_error h, complete_append_error hx]
    rfl
  | ok r =>
    rw [hx] at h
    rw [complete_append_ok h, complete_append_ok hx]
    cases m.complete r.2 xs <;> rfl

theorem Chained.ne_nil (h : m.Chained chunks) : ∀ c ∈ chunks, c ≠ [] := by
  induction chunks with
  | nil => simp
  | cons c chunks ih =>
    cases chunks with
    | nil => simpa using h.1
    | cons c' chunks =>
      intro b hb
      rcases mem_cons.mp hb with rfl | hb
      · exact h.1
      · exact ih h.2.2 b hb

theorem Chained.tail {c : List α} {chunks : List (List α)} (h : m.Chained (c :: chunks)) :
    m.Chained chunks := by
  cases chunks with
  | nil => trivial
  | cons c' chunks => exact h.2.2

theorem Chained.suffix (h : m.Chained (pre ++ post)) : m.Chained post := by
  induction pre with
  | nil => exact h
  | cons c pre ih => exact ih h.tail

/-- The first chunk is cut from what comes next. -/
theorem Chained.cuts (h : m.Chained (c :: chunks)) (hx : x ∈ chunks.flatten.head?) :
    m.Cuts c x := by
  cases chunks with
  | nil => cases hx
  | cons c' chunks =>
    refine h.2.1 x ?_
    have hne : c' ≠ [] := h.ne_nil c' (by simp)
    rwa [flatten_cons, List.head?_append_of_ne_nil _ hne] at hx

/-- A run may be taken up at a cut: the chunks before stay as long as the next element does. -/
theorem Chained.complete_append (h : m.Chained (pre ++ post)) (hx : x ∈ post.flatten.head?)
    (xs : List α) :
    m.complete m.fresh (pre.flatten ++ x :: xs) =
      (m.complete m.fresh (x :: xs)).map (pre.map m.node ++ ·) := by
  induction pre with
  | nil =>
    show m.complete m.fresh (x :: xs) = (m.complete m.fresh (x :: xs)).map fun out => out
    cases m.complete m.fresh (x :: xs) <;> rfl
  | cons c pre ih =>
    have htail : m.Chained (pre ++ post) := h.tail
    have hnext : ∃ y ys, pre.flatten ++ x :: xs = y :: ys ∧
        y ∈ (pre ++ post).flatten.head? := by
      cases hpre : pre.flatten with
      | nil => exact ⟨x, xs, rfl, by simpa [hpre] using hx⟩
      | cons y ys => exact ⟨y, ys ++ x :: xs, rfl, by simp [hpre]⟩
    obtain ⟨y, ys, hys, hy⟩ := hnext
    rw [flatten_cons, append_assoc, hys, (h.cuts hy).complete, ← hys, ih htail]
    cases m.complete m.fresh (x :: xs) <;> simp [Except.map]

theorem Chained.complete (h : m.Chained chunks) (hnil : m.finish m.fresh = .ok []) :
    m.complete m.fresh chunks.flatten = .ok (chunks.map m.node) := by
  induction chunks with
  | nil =>
    show (m.finish m.fresh).map _ = _
    rw [hnil]
    rfl
  | cons c chunks ih =>
    cases chunks with
    | nil => simpa using h.2
    | cons c' chunks =>
      have hne : c' ≠ [] := h.ne_nil c' (by simp)
      obtain ⟨x, xs, rfl⟩ := exists_cons_of_ne_nil hne
      have hcuts := h.2.1 x rfl
      have hrest := ih h.2.2
      rw [flatten_cons, flatten_cons, cons_append, hcuts.complete, ← cons_append,
        ← flatten_cons, hrest]
      rfl

/-! ### Memoryless emitters -/

namespace Memoryless

variable (hm : m.Memoryless) {out : List β} {xs : List α} {s : S}
include hm

/-- What a push does to the open chunk. -/
theorem push_fresh {x : α} {s' : S} (h : m.push m.fresh x = .ok (out, s')) :
    out = [] ∨ (out = [m.node [x]] ∧ s' = m.fresh) := by
  rcases hm.push (feed_nil m.fresh) h with hout | hclosed | ⟨hne, -⟩
  · exact .inl hout
  · exact .inr hclosed
  · exact absurd rfl hne

/-- An emitter that is fresh in the end has emitted everything. -/
theorem complete_of_feed (h : m.feed m.fresh xs = .ok (out, m.fresh)) :
    m.complete m.fresh xs = .ok out := by
  rw [complete, h]
  show (m.finish m.fresh).map _ = _
  rw [hm.finish_fresh]
  simp [Except.map]

/-- What an emitter has been fed since it was last fresh. -/
theorem open_of_feed (h : m.feed m.fresh xs = .ok (out, s)) :
    ∃ done rows, xs = done ++ rows ∧ m.feed m.fresh rows = .ok ([], s) := by
  induction xs using List.reverseRecOn generalizing s out with
  | nil =>
    cases h
    exact ⟨[], [], rfl, rfl⟩
  | append_singleton xs x ih =>
    cases hxs : m.feed m.fresh xs with
    | error error =>
      rw [feed_append, hxs] at h
      cases h
    | ok r =>
      obtain ⟨out1, s1⟩ := r
      obtain ⟨done, rows, rfl, hrows⟩ := ih hxs
      rw [feed_append_ok hxs, feed_singleton] at h
      cases hpush : m.push s1 x with
      | error error =>
        rw [hpush] at h
        cases h
      | ok r =>
        obtain ⟨out2, s2⟩ := r
        rw [hpush] at h
        cases h
        rcases hm.push hrows hpush with rfl | ⟨-, rfl⟩ | ⟨-, rest, -, hfresh⟩
        · refine ⟨done, rows ++ [x], by simp, ?_⟩
          rw [feed_append_ok hrows, feed_singleton, hpush]
          rfl
        · exact ⟨done ++ rows ++ [x], [], by simp, rfl⟩
        · rcases hm.push_fresh hfresh with rfl | ⟨-, rfl⟩
          · exact ⟨done ++ rows, [x], rfl, by rw [feed_singleton, hfresh]⟩
          · exact ⟨done ++ rows ++ [x], [], by simp, rfl⟩

/-- The chunks of what is still to come, behind an open chunk. -/
theorem chained_of_complete {cur : List α} (hcur : m.feed m.fresh cur = .ok ([], s))
    (h : m.complete s xs = .ok out) :
    ∃ chunks, chunks.flatten = cur ++ xs ∧ m.Chained chunks ∧ out = chunks.map m.node := by
  -- a chunk in front of chunks from whose first element it is cut
  have hcons : ∀ {c : List α} {chunks : List (List α)}, c ≠ [] → m.Chained chunks →
      (chunks = [] → m.complete m.fresh c = .ok [m.node c]) →
      (∀ x ∈ chunks.flatten.head?, m.Cuts c x) → m.Chained (c :: chunks) := by
    intro c chunks hne hchunks hlast hcuts
    cases chunks with
    | nil => exact ⟨hne, hlast rfl⟩
    | cons c' chunks =>
      refine ⟨hne, fun x hx => hcuts x ?_, hchunks⟩
      rw [flatten_cons, List.head?_append_of_ne_nil _ (hchunks.ne_nil c' (by simp))]
      exact hx
  -- a chunk that ends by itself, in front of a run of the fresh emitter
  have hclosed : ∀ {c : List α} {chunks : List (List α)}, c ≠ [] →
      m.feed m.fresh c = .ok ([m.node c], m.fresh) → m.Chained chunks →
          m.Chained (c :: chunks) := by
    intro c chunks hne hfeed hchunks
    refine hcons hne hchunks (fun _ => ?_) fun x _ => ?_
    · rw [complete, hfeed]
      show (m.finish m.fresh).map _ = _
      rw [hm.finish_fresh]
      rfl
    · rw [Cuts, feed_append_ok hfeed]
      rfl
  induction xs generalizing cur s out with
  | nil =>
    have hfinish : (m.finish s).map ([] ++ ·) = .ok out := h
    by_cases hne : cur = []
    · subst hne
      cases hcur
      rw [hm.finish_fresh] at hfinish
      cases hfinish
      exact ⟨[], rfl, trivial, rfl⟩
    · cases hlast : m.finish s with
      | error error =>
        rw [hlast] at hfinish
        cases hfinish
      | ok last =>
        rw [hlast] at hfinish
        cases hfinish
        obtain rfl := hm.finish hcur hne hlast
        refine ⟨[cur], by simp, ⟨hne, ?_⟩, rfl⟩
        rw [complete, hcur]
        show (m.finish s).map _ = _
        rw [hlast]
        rfl
  | cons x xs ih =>
    cases hpush : m.push s x with
    | error error =>
      rw [complete, feed, hpush] at h
      cases h
    | ok r =>
      obtain ⟨out1, s1⟩ := r
      rw [complete_cons hpush] at h
      obtain ⟨out2, hrest, rfl⟩ : ∃ out2, m.complete s1 xs = .ok out2 ∧ out1 ++ out2 = out := by
        cases hc : m.complete s1 xs with
        | error error =>
          rw [hc] at h
          cases h
        | ok out2 =>
          rw [hc] at h
          cases h
          exact ⟨out2, rfl, rfl⟩
      have hfeed : m.feed m.fresh (cur ++ [x]) = .ok (out1, s1) := by
        rw [feed_append_ok hcur, feed_singleton, hpush]
        rfl
      rcases hm.push hcur hpush with rfl | ⟨rfl, rfl⟩ | ⟨hne, rest, rfl, hfresh⟩
      · -- the chunk stays open
        obtain ⟨chunks, hflat, hchained, hout⟩ := ih hfeed hrest
        exact ⟨chunks, by simpa using hflat, hchained, hout⟩
      · -- the chunk ends with the element
        obtain ⟨chunks, hflat, hchained, rfl⟩ := ih (feed_nil m.fresh) hrest
        refine ⟨(cur ++ [x]) :: chunks, by simpa using hflat, ?_, rfl⟩
        exact hclosed (by simp) hfeed hchained
      · -- the chunk ends before the element
        have hcut : m.Cuts cur x := by
          rw [Cuts, hfeed, feed_singleton, hfresh]
          rfl
        have hsplit : ∃ chunks, chunks.flatten = x :: xs ∧ m.Chained chunks ∧
            rest ++ out2 = chunks.map m.node := by
          rcases hm.push_fresh hfresh with rfl | ⟨rfl, rfl⟩
          · rw [← feed_singleton] at hfresh
            exact ih hfresh hrest
          · obtain ⟨chunks, hflat, hchained, rfl⟩ := ih (feed_nil m.fresh) hrest
            rw [← feed_singleton] at hfresh
            exact ⟨[x] :: chunks, by simpa using hflat, hclosed (by simp) hfresh hchained, rfl⟩
        obtain ⟨chunks, hflat, hchained, hnodes⟩ := hsplit
        refine ⟨cur :: chunks, by simp [hflat], hcons hne hchained ?_ ?_, ?_⟩
        · rintro rfl
          cases hflat
        · intro y hy
          rw [hflat] at hy
          cases hy
          exact hcut
        · rw [map_cons, ← hnodes]
          rfl

/-- The chunks of a list. -/
theorem complete_eq_ok :
    m.complete m.fresh xs = .ok out ↔
      ∃ chunks, chunks.flatten = xs ∧ m.Chained chunks ∧ out = chunks.map m.node := by
  constructor
  · intro h
    exact hm.chained_of_complete (feed_nil m.fresh) h
  · rintro ⟨chunks, rfl, hchained, rfl⟩
    exact hchained.complete hm.finish_fresh

end Memoryless

end Emitter

end Emission

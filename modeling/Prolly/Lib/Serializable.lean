import Prolly.Lib.Optimistic

/-!
# Serializability of optimistic transactions

Clients that run one transaction each. In every interleaving the committed transactions have
returned and left the cells as they would have one after another in the order of their commits
(`Run.alone`, `Linked.serialAll`): what a transaction has done so far is what it would have done
alone on any cells that pass the check of its commit (`Process.Within`). So has one that does not
commit, up to its end (`Run.shows`).
-/

namespace Optimistic

open List Option

section

variable {ι N D V β γ ρ : Type} [LinearOrder N] {roots roots' : SortedMap N V}
  {o : Overlay N D V} {name : N} {value : Option V} {view : β → γ}

/-! ### Transactions alone -/

/-- A transaction that runs alone, its writes done in place: the cells if it commits, and what is
left of it then. -/
def Prog.alone : Prog N D V β → SortedMap N V → Option (SortedMap N V) × Prog N D V β
  | .load name next, roots => (next (roots.get? name)).alone roots
  | .stage name value next, roots => next.alone (roots.set name value)
  | .stageData _ _ next, roots => next.alone roots
  | .rollback next, _ => (none, next)
  | .commit next, roots => (some roots, next none)
  | prog, _ => (none, prog)

/-- Accesses of one transaction, then a commit or a rollback and the result. What the result shows
does not depend on whether the commit goes through. -/
def Prog.IsTransaction (view : β → γ) : Prog N D V β → Prop
  | .load _ next => ∀ value, (next value).IsTransaction view
  | .stage _ _ next => next.IsTransaction view
  | .stageData _ _ next => next.IsTransaction view
  | .rollback next => ∃ result, next = .ret result
  | .commit next => ∃ seen, ∀ outcome, ∃ result, next outcome = .ret result ∧ view result = seen
  | _ => False

theorem Prog.IsTransaction.alone_ret {t : Prog N D V β} (h : t.IsTransaction view)
    (roots : SortedMap N V) : ∃ result, (t.alone roots).2 = .ret result := by
  induction t generalizing roots with
  | load name next ih => exact ih _ (h _) roots
  | stage name value next ih => exact ih h _
  | stageData name value next ih => exact ih h _
  | rollback next => exact h
  | commit next =>
    obtain ⟨seen, h⟩ := h
    obtain ⟨result, hret, -⟩ := h none
    exact ⟨result, hret⟩
  | _ => exact h.elim

/-- Alone on some cells the transaction shows the same. -/
def Prog.Shows (view : β → γ) (t : Prog N D V β) (seen : γ) : Prop :=
  ∃ roots result, (t.alone roots).2 = .ret result ∧ view result = seen

/-- Clients that run alone, one after another: what they give, and the cells. One that does not
commit leaves the cells as they are. -/
def serialAll (run : ι → SortedMap N V → Option (SortedMap N V) × ρ) : List ι → SortedMap N V →
    List (ι × ρ) × SortedMap N V
  | [], roots => ([], roots)
  | i :: is, roots =>
    let (roots', result) := run i roots
    let (results, roots'') := serialAll run is (roots'.getD roots)
    ((i, result) :: results, roots'')

theorem Linked.serialAll {run : ι → SortedMap N V → Option (SortedMap N V) × ρ}
    {events : List (Event ι N D V)} (h : Linked roots events roots')
    (hrun : ∀ e ∈ events, (run e.process e.before.roots).1 = some e.after.roots) :
    Optimistic.serialAll run (events.map Event.process) roots =
      (events.map fun e => (e.process, (run e.process e.before.roots).2), roots') := by
  induction events generalizing roots with
  | nil =>
    obtain rfl : roots' = roots := h
    rfl
  | cons e events ih =>
    obtain ⟨rfl, hrest⟩ := h
    have hlater := ih hrest fun e' he' => hrun e' (.tail _ he')
    simp only [map_cons, Optimistic.serialAll, hrun e mem_cons_self, getD_some, hlater]

/-! ### What a transaction knows -/

theorem Overlay.valid_pin (hseen : o.seen name = none) :
    (o.pin name value).Valid roots ↔ o.Valid roots ∧ roots.get? name = value := by
  have hnew : o.reads.get? name = none := (or_eq_none_iff.mp hseen).2
  constructor
  · refine fun h => ⟨fun n v hread => h n v ?_, h name value ?_⟩
    · show (o.reads.insert name value).get? n = some v
      rw [SortedMap.get?_insert, if_neg, hread]
      rintro rfl
      rw [hnew] at hread
      cases hread
    · show (o.reads.insert name value).get? name = some value
      rw [SortedMap.get?_insert, if_pos rfl]
  · rintro ⟨hvalid, hvalue⟩ n v hread
    rw [show (o.pin name value).reads = o.reads.insert name value from rfl,
      SortedMap.get?_insert] at hread
    split at hread
    · next heq => cases hread; exact heq ▸ hvalue
    · exact hvalid n v hread

/-- What a transaction knows of a cell is what it would find alone. -/
theorem Overlay.get?_of_seen (hvalid : o.Valid roots) (hseen : o.seen name = some value) :
    (roots.overlay o.writes).get? name = value := by
  rw [SortedMap.get?_overlay]
  rcases or_eq_some_iff.mp hseen with hstaged | ⟨hstaged, hread⟩
  · rw [hstaged]
    rfl
  · rw [hstaged]
    exact hvalid name value hread

/-- There are cells that pass the check. -/
theorem Overlay.exists_valid (o : Overlay N D V) : ∃ roots, o.Valid roots :=
  ⟨(∅ : SortedMap N V).overlay o.reads, fun name value hread => by
    rw [SortedMap.get?_overlay, hread]; rfl⟩

end

section

variable {ι N D V β γ : Type} [DecidableEq ι] [LinearOrder N] [DecidableEq V] {s s' : Store N D V}
  {p p' : Process N D V β} {c0 c : Config ι N D V β} {events : List (Event ι N D V)}
  {t : ι → Prog N D V β} {view : β → γ}

/-! ### Serializability -/

/-- The client is in the middle of the transaction: alone on any cells that pass the check,
the transaction would have come to the same point. -/
structure Process.Within (view : β → γ) (t : Prog N D V β) (p : Process N D V β) : Prop where
  isTransaction : p.prog.IsTransaction view
  alone : ∀ roots, p.overlay.Valid roots →
    t.alone roots = p.prog.alone (roots.overlay p.overlay.writes)

/-- A step within a transaction that neither commits nor ends it. -/
theorem Process.Within.next {t : Prog N D V β} (hp : p.Within view t)
    (h : p.next s = some (s', p', false)) :
    s' = s ∧ (p'.Within view t ∨ ∃ result, p'.prog = .ret result ∧ t.Shows view (view result)) := by
  obtain ⟨htx, halone⟩ := hp
  unfold Process.next at h
  split at h <;> rename_i hprog <;> rw [hprog] at htx <;> rw [hprog] at halone
  case h_7 name next =>
    simp only [Overlay.load] at h
    cases hseen : p.overlay.seen name with
    | some value =>
      simp only [hseen] at h
      cases h
      refine ⟨rfl, .inl ⟨htx value, fun roots hvalid => ?_⟩⟩
      have hhere := halone roots hvalid
      rwa [Prog.alone, Overlay.get?_of_seen hvalid hseen] at hhere
    | none =>
      simp only [hseen] at h
      cases h
      refine ⟨rfl, .inl ⟨htx _, fun roots hvalid => ?_⟩⟩
      obtain ⟨hvalid, hvalue⟩ := (Overlay.valid_pin hseen).mp hvalid
      have hstaged : p.overlay.writes.get? name = none := (or_eq_none_iff.mp hseen).1
      have hfound : (roots.overlay p.overlay.writes).get? name = s.roots.get? name := by
        rw [SortedMap.get?_overlay, hstaged]
        exact hvalue
      have hhere := halone roots hvalid
      rwa [Prog.alone, hfound] at hhere
  case h_8 name value next =>
    cases h
    refine ⟨rfl, .inl ⟨htx, fun roots hvalid => ?_⟩⟩
    have hhere := halone roots hvalid
    rwa [Prog.alone, ← SortedMap.overlay_insert] at hhere
  case h_9 name value next =>
    cases h
    exact ⟨rfl, .inl ⟨htx, fun roots hvalid => halone roots hvalid⟩⟩
  case h_10 next =>
    cases h
    obtain ⟨result, rfl⟩ := htx
    obtain ⟨roots, hvalid⟩ := p.overlay.exists_valid
    exact ⟨rfl, .inr ⟨result, rfl, roots, result, by rw [halone roots hvalid]; rfl, rfl⟩⟩
  case h_11 next =>
    split at h
    · next conflict _ =>
      cases h
      obtain ⟨seen, htx⟩ := htx
      obtain ⟨result, hret, hseen⟩ := htx (some conflict)
      obtain ⟨result', hret', hseen'⟩ := htx none
      obtain ⟨roots, hvalid⟩ := p.overlay.exists_valid
      refine ⟨rfl, .inr ⟨result, hret, roots, result', ?_, hseen'.trans hseen.symm⟩⟩
      rw [halone roots hvalid]
      exact hret'
    · cases h
  all_goals exact absurd htx (by simp [Prog.IsTransaction])

/-- A commit within a transaction. -/
theorem Process.Within.commit {t : Prog N D V β} (hp : p.Within view t)
    (h : p.next s = some (s', p', true)) : t.alone s.roots = (some s'.roots, p'.prog) := by
  obtain ⟨htx, halone⟩ := hp
  unfold Process.next at h
  split at h <;> rename_i hprog <;> rw [hprog] at halone
  case h_11 next =>
    split at h
    · cases h
    · next hvalid =>
      cases h
      exact halone s.roots (p.overlay.conflict?_eq_none.mp hvalid)
  all_goals cases h

/-- Clients that run one transaction each are before it, in it, or through, and then have shown
what they would have alone. -/
def Process.Along (view : β → γ) (t : Prog N D V β) (p : Process N D V β) : Prop :=
  p = { prog := .begin t } ∨ p.Within view t ∨ p.prog = .failed ∨
    ∃ result, p.prog = .ret result ∧ t.Shows view (view result)

/-- Every committed transaction has come to its end as it would have alone at the moment of its
commit. -/
theorem Run.alone (h : Run c0 events c) (htx : ∀ i, (t i).IsTransaction view)
    (hstart : ∀ i, c0.procs i = { prog := .begin (t i) }) (i : ι) :
    (c.procs i).Along view (t i) ∧ ∀ e ∈ events, e.process = i →
      (t i).alone e.before.roots = (some e.after.roots, (c.procs i).prog) := by
  -- a client in the record of commits has returned, and does nothing any more
  have hdone : ∀ {i} {events : List (Event ι N D V)} {s : Store N D V} {p : Process N D V β},
      (∀ e ∈ events, e.process = i → (t i).alone e.before.roots = (some e.after.roots, p.prog)) →
      (p.next s).isSome → ∀ e ∈ events, e.process ≠ i := by
    intro i events s p hevents hsome e he hi
    obtain ⟨result, hret⟩ := (htx i).alone_ret e.before.roots
    rw [hevents e he hi] at hret
    simp [Process.next, show p.prog = .ret result from hret] at hsome
  refine Run.forall_process (fun i events p => p.Along view (t i) ∧
    ∀ e ∈ events, e.process = i → (t i).alone e.before.roots = (some e.after.roots, p.prog))
    (fun i => ⟨.inl (hstart i), by simp⟩) ?_ ?_ ?_ ?_ h i
  · rintro i events s s' p p' ⟨hp, hevents⟩ hnext
    refine ⟨?_, fun e he hi => absurd hi (hdone hevents (by rw [hnext]; rfl) e he)⟩
    rcases hp with rfl | hp | hp | ⟨result, hp, -⟩
    · cases hnext
      exact .inr (.inl ⟨htx i, fun roots _ => rfl⟩)
    · rcases (hp.next hnext).2 with hp' | hp'
      · exact .inr (.inl hp')
      · exact .inr (.inr (.inr hp'))
    · simp [Process.next, hp] at hnext
    · simp [Process.next, hp] at hnext
  · rintro i events s s' p p' ⟨hp, hevents⟩ hnext
    have halone : (t i).alone s.roots = (some s'.roots, p'.prog) := by
      rcases hp with rfl | hp | hp | ⟨result, hp, -⟩
      · cases hnext
      · exact hp.commit hnext
      · simp [Process.next, hp] at hnext
      · simp [Process.next, hp] at hnext
    obtain ⟨result, hret⟩ := (htx i).alone_ret s.roots
    rw [halone] at hret
    have hshows : (t i).Shows view (view result) := ⟨_, result, by rw [halone]; exact hret, rfl⟩
    refine ⟨.inr (.inr (.inr ⟨result, hret, hshows⟩)), fun e he hi => ?_⟩
    rcases mem_append.mp he with he | he
    · exact absurd hi (hdone hevents (by rw [hnext]; rfl) e he)
    · rw [mem_singleton.mp he]
      exact halone
  · rintro i events p e ⟨hp, hevents⟩ hother
    refine ⟨hp, fun e' he' hi => ?_⟩
    rcases mem_append.mp he' with he' | he'
    · exact hevents e' he' hi
    · rw [mem_singleton.mp he'] at hi
      exact absurd hi hother
  · rintro i events s p ⟨-, hevents⟩ hsome
    exact ⟨.inr (.inr (.inl rfl)), fun e he hi => absurd hi (hdone hevents hsome e he)⟩

/-- Transactions change the store at their commits only. -/
theorem Run.next_store (h : Run c0 events c) (htx : ∀ i, (t i).IsTransaction view)
    (hstart : ∀ i, c0.procs i = { prog := .begin (t i) }) {i : ι}
    (hnext : (c.procs i).next c.store = some (s, p, false)) : s = c.store := by
  rcases (h.alone htx hstart i).1 with hp | hp | hp | ⟨result, hp, -⟩
  · rw [hp] at hnext
    cases hnext
    rfl
  · exact (hp.next hnext).1
  · simp [Process.next, hp] at hnext
  · simp [Process.next, hp] at hnext

/-- Every transaction that has ended has shown what it would have alone on some cells. -/
theorem Run.shows (h : Run c0 events c) (htx : ∀ i, (t i).IsTransaction view)
    (hstart : ∀ i, c0.procs i = { prog := .begin (t i) }) {i : ι} {result : β}
    (hret : (c.procs i).prog = .ret result) : (t i).Shows view (view result) := by
  rcases (h.alone htx hstart i).1 with hp | hp | hp | ⟨result', hp, hshows⟩
  · rw [hp] at hret
    cases hret
  · have htx := hp.isTransaction
    rw [hret] at htx
    exact htx.elim
  · rw [hp] at hret
    cases hret
  · rw [hp] at hret
    cases hret
    exact hshows

end

end Optimistic

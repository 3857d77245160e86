import Mathlib.Data.List.Nodup
import Mathlib.Logic.Function.Basic
import Prolly.Lib.SortedMap

/-!
# Optimistic transactions

Clients that share a store of named cells and change them in optimistic transactions. A
transaction keeps its writes in an overlay and notes the value of each cell it reads from
the store; a commit checks in one step that these cells still have these values, and then
writes. Data cells are written the same way but never checked.

Any number of clients run interleaved, one operation at a time (`Run`), and any of them may
stop at any operation. The rules:

* the checked cells change at commits only, one after another (`Run.linked`);
* what every commit of a program does to any store that passes its check, it does in every
  run (`Run.commits`);
* a program that commits at most once and tells by its result is in the record of commits
  exactly as it tells (`Run.once`).
-/

namespace Optimistic

open List

/-- The shared cells: those transactions check, and those they only write. -/
structure Store (N D V : Type) [LinearOrder N] where
  data : SortedMap N D
  roots : SortedMap N V

/-- What a transaction has read from the store and means to write. -/
structure Overlay (N D V : Type) [LinearOrder N] where
  dataWrites : SortedMap N (Option D) := ∅
  reads : SortedMap N (Option V) := ∅
  writes : SortedMap N (Option V) := ∅

/-- The first cell that has changed since it was read. -/
structure Conflict (N V : Type) where
  name : N
  expected : Option V
  current : Option V
  deriving DecidableEq

/-- A client: what it does next, given the answers so far. -/
inductive Prog (N D V β : Type) [LinearOrder N] where
  | ret (result : β)
  /-- Stopped by an error of the store. -/
  | failed
  /-- Read a cell outside of the transaction. -/
  | get (name : N) (next : Option V → Prog N D V β)
  /-- Read all cells outside of the transaction. -/
  | list (next : SortedMap N V → Prog N D V β)
  /-- Write a data cell outside of the transaction. -/
  | publish (name : N) (value : D) (next : Prog N D V β)
  /-- Start a transaction. -/
  | begin (next : Prog N D V β)
  /-- Read a cell in the transaction. -/
  | load (name : N) (next : Option V → Prog N D V β)
  /-- Write or delete a cell in the transaction. -/
  | stage (name : N) (value : Option V) (next : Prog N D V β)
  /-- Write or delete a data cell in the transaction. -/
  | stageData (name : N) (value : Option D) (next : Prog N D V β)
  | rollback (next : Prog N D V β)
  /-- Check and write; a conflict is handed on. -/
  | commit (next : Option (Conflict N V) → Prog N D V β)

/-- A running client: its program and its transaction. -/
structure Process (N D V β : Type) [LinearOrder N] where
  prog : Prog N D V β
  overlay : Overlay N D V := {}

section

variable {N D V β : Type} [LinearOrder N] [DecidableEq V]

namespace Overlay

variable (o : Overlay N D V)

/-- The value the transaction knows of a cell: staged, or read before. -/
def seen (name : N) : Option (Option V) := (o.writes.get? name).or (o.reads.get? name)

/-- Note the value of a cell. -/
def pin (name : N) (value : Option V) : Overlay N D V :=
  { o with reads := o.reads.insert name value }

/-- Read a cell through the overlay. -/
def load (roots : SortedMap N V) (name : N) : Option V × Overlay N D V :=
  match o.seen name with
  | some value => (value, o)
  | none => (roots.get? name, o.pin name (roots.get? name))

def stage (name : N) (value : Option V) : Overlay N D V :=
  { o with writes := o.writes.insert name value }

def stageData (name : N) (value : Option D) : Overlay N D V :=
  { o with dataWrites := o.dataWrites.insert name value }

/-- The check of a commit. -/
def conflict? (roots : SortedMap N V) : Option (Conflict N V) :=
  (o.reads.entries.find? fun read => roots.get? read.1 ≠ read.2).map fun read =>
    ⟨read.1, read.2, roots.get? read.1⟩

/-- The writes of a commit. -/
def apply (s : Store N D V) : Store N D V :=
  ⟨s.data.overlay o.dataWrites, s.roots.overlay o.writes⟩

/-- The cells that were read have the values that were read. -/
def Valid (roots : SortedMap N V) : Prop :=
  ∀ name value, o.reads.get? name = some value → roots.get? name = value

theorem conflict?_eq_none {roots : SortedMap N V} : o.conflict? roots = none ↔ o.Valid roots := by
  unfold conflict? Valid
  rw [Option.map_eq_none_iff, List.find?_eq_none]
  constructor
  · intro h name value hread
    simpa using h (name, value) (o.reads.mem_entries.mpr hread)
  · rintro h ⟨name, value⟩ hmem
    simpa using h name value (o.reads.mem_entries.mp hmem)

end Overlay

/-- One operation of a client: the store and the client after it, and whether a commit went
through. A client that has returned or stopped has none. -/
def Process.next (s : Store N D V) (p : Process N D V β) :
    Option (Store N D V × Process N D V β × Bool) :=
  match p.prog with
  | .ret _ => none
  | .failed => none
  | .get name next => some (s, { p with prog := next (s.roots.get? name) }, false)
  | .list next => some (s, { p with prog := next s.roots }, false)
  | .publish name value next =>
    some ({ s with data := s.data.insert name value }, { p with prog := next }, false)
  | .begin next => some (s, { prog := next }, false)
  | .load name next =>
    let (value, overlay) := p.overlay.load s.roots name
    some (s, ⟨next value, overlay⟩, false)
  | .stage name value next => some (s, ⟨next, p.overlay.stage name value⟩, false)
  | .stageData name value next => some (s, ⟨next, p.overlay.stageData name value⟩, false)
  | .rollback next => some (s, { prog := next }, false)
  | .commit next =>
    match p.overlay.conflict? s.roots with
    | some conflict => some (s, { prog := next (some conflict) }, false)
    | none => some (p.overlay.apply s, { prog := next none }, true)

end

/-! ### Runs -/

/-- The store and the clients. -/
structure Config (ι N D V β : Type) [LinearOrder N] where
  store : Store N D V
  procs : ι → Process N D V β

/-- A commit that went through. -/
structure Event (ι N D V : Type) [LinearOrder N] where
  process : ι
  before : Store N D V
  after : Store N D V

section

variable {ι N D V β : Type} [DecidableEq ι] [LinearOrder N] [DecidableEq V]
  {c0 c : Config ι N D V β} {events : List (Event ι N D V)}

/-- Interleaved runs, with the commits that went through. -/
inductive Run (c0 : Config ι N D V β) : List (Event ι N D V) → Config ι N D V β → Prop
  | start : Run c0 [] c0
  | step {events : List (Event ι N D V)} {c : Config ι N D V β} {i : ι} {s : Store N D V}
      {p : Process N D V β} : Run c0 events c → (c.procs i).next c.store = some (s, p, false) →
      Run c0 events ⟨s, Function.update c.procs i p⟩
  | commit {events : List (Event ι N D V)} {c : Config ι N D V β} {i : ι} {s : Store N D V}
      {p : Process N D V β} : Run c0 events c → (c.procs i).next c.store = some (s, p, true) →
      Run c0 (events ++ [⟨i, c.store, s⟩]) ⟨s, Function.update c.procs i p⟩
  | fail {events : List (Event ι N D V)} {c : Config ι N D V β} {i : ι} : Run c0 events c →
      ((c.procs i).next c.store).isSome →
      Run c0 events ⟨c.store, Function.update c.procs i { (c.procs i) with prog := .failed }⟩

/-- The run in which the clients take their turns as listed. -/
def Config.exec (c : Config ι N D V β) : List ι → List (Event ι N D V) × Config ι N D V β
  | [] => ([], c)
  | i :: is =>
    match (c.procs i).next c.store with
    | none => c.exec is
    | some (s, p, committed) =>
      let (events, c') := Config.exec ⟨s, Function.update c.procs i p⟩ is
      (if committed then ⟨i, c.store, s⟩ :: events else events, c')

theorem Run.exec (h : Run c0 events c) (is : List ι) :
    Run c0 (events ++ (c.exec is).1) (c.exec is).2 := by
  induction is generalizing c events with
  | nil => simpa [Config.exec] using h
  | cons i is ih =>
    unfold Config.exec
    split
    · exact ih h
    · next s p committed hnext =>
      cases committed with
      | false => exact ih (h.step hnext)
      | true => simpa using ih (h.commit hnext)

theorem Config.run_exec (c : Config ι N D V β) (is : List ι) : Run c (c.exec is).1 (c.exec is).2 :=
  Run.start.exec is

/-- A property of every client in every run: it holds at the start and every operation and
every failure of a client keeps it. -/
theorem Run.forall_process (Inv : ι → List (Event ι N D V) → Process N D V β → Prop)
    (hstart : ∀ i, Inv i [] (c0.procs i))
    (hstep : ∀ {i events s s' p p'}, Inv i events p → p.next s = some (s', p', false) →
      Inv i events p')
    (hcommit : ∀ {i events s s' p p'}, Inv i events p → p.next s = some (s', p', true) →
      Inv i (events ++ [⟨i, s, s'⟩]) p')
    (hother : ∀ {i events p} {e : Event ι N D V}, Inv i events p → e.process ≠ i →
      Inv i (events ++ [e]) p) (hfail : ∀ {i events s p}, Inv i events p → (p.next s).isSome →
      Inv i events { p with prog := .failed }) (h : Run c0 events c) :
    ∀ i, Inv i events (c.procs i) := by
  induction h with
  | start => exact hstart
  | @step events c i s p _ hnext ih =>
    intro j
    by_cases hj : j = i
    · subst hj
      simpa using hstep (ih j) hnext
    · simpa [hj] using ih j
  | @commit events c i s p _ hnext ih =>
    intro j
    by_cases hj : j = i
    · subst hj
      simpa using hcommit (ih j) hnext
    · simpa [hj] using hother (ih j) (Ne.symm hj)
  | @fail events c i _ hrunning ih =>
    intro j
    by_cases hj : j = i
    · subst hj
      simpa using hfail (ih j) hrunning
    · simpa [hj] using ih j

/-- The same for a property that does not look at the commits before: an operation that
commits shows what the commit does. -/
theorem Run.forall_event (Inv : ι → Process N D V β → Prop) (Does : Event ι N D V → Prop)
    (hstart : ∀ i, Inv i (c0.procs i))
    (hstep : ∀ {i s s' p p'}, Inv i p → p.next s = some (s', p', false) → Inv i p')
    (hcommit : ∀ {i s s' p p'}, Inv i p → p.next s = some (s', p', true) →
      Inv i p' ∧ Does ⟨i, s, s'⟩)
    (hfail : ∀ {i p}, Inv i p → Inv i { p with prog := .failed }) (h : Run c0 events c) :
    (∀ i, Inv i (c.procs i)) ∧ ∀ e ∈ events, Does e := by
  have hall := Run.forall_process (fun i events p =>
    (∀ e ∈ events, e.process = i → Does e) ∧ Inv i p) ?_ ?_ ?_ ?_ ?_ h
  · exact ⟨fun i => (hall i).2, fun e he => (hall e.process).1 e he rfl⟩
  · exact fun i => ⟨by simp, hstart i⟩
  · rintro i events s s' p p' ⟨hevents, hp⟩ hnext
    exact ⟨hevents, hstep hp hnext⟩
  · rintro i events s s' p p' ⟨hevents, hp⟩ hnext
    refine ⟨fun e he hi => ?_, (hcommit hp hnext).1⟩
    rcases mem_append.mp he with he | he
    · exact hevents e he hi
    · rw [mem_singleton.mp he]
      exact (hcommit hp hnext).2
  · rintro i events p e ⟨hevents, hp⟩ hother
    refine ⟨fun e' he' hi => ?_, hp⟩
    rcases mem_append.mp he' with he' | he'
    · exact hevents e' he' hi
    · rw [mem_singleton.mp he'] at hi
      exact absurd hi hother
  · rintro i events s p ⟨hevents, hp⟩ -
    exact ⟨hevents, hfail hp⟩

end

/-! ### The record of commits -/

section

variable {ι N D V : Type} [LinearOrder N] {roots roots' : SortedMap N V}
  {events : List (Event ι N D V)}

/-- The commits take the cells from one state to the other. -/
def Linked : SortedMap N V → List (Event ι N D V) → SortedMap N V → Prop
  | roots, [], roots' => roots' = roots
  | roots, e :: events, roots' => e.before.roots = roots ∧ Linked e.after.roots events roots'

theorem Linked.snoc {e : Event ι N D V} (h : Linked roots events roots')
    (he : e.before.roots = roots') : Linked roots (events ++ [e]) e.after.roots := by
  induction events generalizing roots with
  | nil =>
    obtain rfl : roots' = roots := h
    exact ⟨he, rfl⟩
  | cons first events ih => exact ⟨h.1, ih h.2⟩

/-- What every commit keeps holds all along. -/
theorem Linked.invariant {P : SortedMap N V → Prop} (h : Linked roots events roots')
    (hroots : P roots) (hkeeps : ∀ e ∈ events, P e.before.roots → P e.after.roots) :
    P roots' ∧ ∀ e ∈ events, P e.before.roots ∧ P e.after.roots := by
  induction events generalizing roots with
  | nil =>
    obtain rfl : roots' = roots := h
    exact ⟨hroots, by simp⟩
  | cons first events ih =>
    obtain ⟨hfirst, hrest⟩ := h
    have hbefore : P first.before.roots := hfirst ▸ hroots
    have hafter := hkeeps first mem_cons_self hbefore
    obtain ⟨hend, hall⟩ := ih hrest hafter fun e he => hkeeps e (.tail _ he)
    refine ⟨hend, fun e he => ?_⟩
    rcases mem_cons.mp he with rfl | he
    · exact ⟨hbefore, hafter⟩
    · exact hall e he

end

section

variable {ι N D V β : Type} [DecidableEq ι] [LinearOrder N] [DecidableEq V] {s s' : Store N D V}
  {p p' : Process N D V β} {c0 c : Config ι N D V β} {events : List (Event ι N D V)}

/-- Outside of a commit no checked cell changes. -/
theorem Process.next_roots (h : p.next s = some (s', p', false)) : s'.roots = s.roots := by
  unfold Process.next at h
  split at h
  case h_11 =>
    split at h
    · cases h
      rfl
    · cases h
  all_goals cases h
  all_goals rfl

/-- The checked cells change at commits only. -/
theorem Run.linked (h : Run c0 events c) : Linked c0.store.roots events c.store.roots := by
  induction h with
  | start => rfl
  | step _ hnext ih =>
    show Linked _ _ _
    rw [Process.next_roots hnext]
    exact ih
  | commit _ hnext ih => exact ih.snoc rfl
  | fail _ _ ih => exact ih

/-! ### What commits do -/

/-- Every commit of the program does `R`, whatever the program is told: the check of a commit
is all that is known of the store then. -/
def Prog.Commits (R : Store N D V → Store N D V → Prop) : Prog N D V β → Overlay N D V → Prop
  | .ret _, _ => True
  | .failed, _ => True
  | .get _ next, o => ∀ value, (next value).Commits R o
  | .list next, o => ∀ roots, (next roots).Commits R o
  | .publish _ _ next, o => next.Commits R o
  | .begin next, _ => next.Commits R {}
  | .load name next, o =>
    match o.seen name with
    | some value => (next value).Commits R o
    | none => ∀ value, (next value).Commits R (o.pin name value)
  | .stage name value next, o => next.Commits R (o.stage name value)
  | .stageData name value next, o => next.Commits R (o.stageData name value)
  | .rollback next, _ => next.Commits R {}
  | .commit next, o =>
    (∀ s, o.Valid s.roots → R s (o.apply s)) ∧ ∀ outcome, (next outcome).Commits R {}

theorem Process.next_commits {R : Store N D V → Store N D V → Prop} {committed : Bool}
    (hp : p.prog.Commits R p.overlay) (h : p.next s = some (s', p', committed)) :
    p'.prog.Commits R p'.overlay ∧ (committed = true → R s s') := by
  unfold Process.next at h
  split at h <;> rename_i hprog <;> rw [hprog] at hp
  case h_7 name next =>
    simp only [Prog.Commits] at hp
    simp only [Overlay.load] at h
    cases hseen : p.overlay.seen name with
    | some value =>
      simp only [hseen] at hp h
      cases h
      exact ⟨hp, nofun⟩
    | none =>
      simp only [hseen] at hp h
      cases h
      exact ⟨hp _, nofun⟩
  case h_11 =>
    split at h
    · cases h
      exact ⟨hp.2 _, nofun⟩
    · next hvalid =>
      cases h
      exact ⟨hp.2 _, fun _ => hp.1 s (p.overlay.conflict?_eq_none.mp hvalid)⟩
  all_goals cases h
  all_goals first | exact ⟨hp, nofun⟩ | exact ⟨hp _, nofun⟩

/-- What the commits of the programs do, they do in every run. -/
theorem Run.commits {R : ι → Store N D V → Store N D V → Prop} (h : Run c0 events c)
    (hstart : ∀ i, (c0.procs i).prog.Commits (R i) (c0.procs i).overlay) :
    ∀ e ∈ events, R e.process e.before e.after := by
  refine (Run.forall_event (fun i p => p.prog.Commits (R i) p.overlay)
    (fun e => R e.process e.before e.after) hstart ?_ ?_ ?_ h).2
  · exact fun hp hnext => (Process.next_commits hp hnext).1
  · intro i s s' p p' hp hnext
    obtain ⟨hp', hdone⟩ := Process.next_commits hp hnext
    exact ⟨hp', hdone rfl⟩
  · exact fun _ => trivial

end

/-! ### Rules for commits

A transaction sees its own writes over the cells. What is known of the cells and of this view
is kept operation by operation as in a program that runs alone. -/

section

variable {N D V β : Type} [LinearOrder N]

/-- From a transaction that knows `J` of the cells and of its view of them, every commit of the
program does `R`. -/
def Prog.CommitsFrom (R J : SortedMap N V → SortedMap N V → Prop) (prog : Prog N D V β) : Prop :=
  ∀ o : Overlay N D V, (∀ roots, o.Valid roots → J roots (roots.overlay o.writes)) →
    prog.Commits (fun s s' => R s.roots s'.roots) o

namespace Prog.CommitsFrom

variable {R J : SortedMap N V → SortedMap N V → Prop} {name : N}

theorem ret (result : β) : (Prog.ret result : Prog N D V β).CommitsFrom R J := fun _ _ => trivial

theorem failed : (Prog.failed : Prog N D V β).CommitsFrom R J := fun _ _ => trivial

theorem get {next : Option V → Prog N D V β} (h : ∀ value, (next value).CommitsFrom R J) :
    (Prog.get name next).CommitsFrom R J := fun o hJ value => h value o hJ

theorem list {next : SortedMap N V → Prog N D V β} (h : ∀ roots, (next roots).CommitsFrom R J) :
    (Prog.list next).CommitsFrom R J := fun o hJ roots => h roots o hJ

theorem publish {value : D} {next : Prog N D V β} (h : next.CommitsFrom R J) :
    (Prog.publish name value next).CommitsFrom R J := h

/-- At the start of a transaction its view is that of the cells. -/
theorem begin {next : Prog N D V β} (h : next.CommitsFrom R fun roots view => view = roots) :
    (Prog.begin next).CommitsFrom R J := fun _ _ => h {} fun _ _ => rfl

theorem rollback {next : Prog N D V β} (h : next.CommitsFrom R fun roots view => view = roots) :
    (Prog.rollback next).CommitsFrom R J := fun _ _ => h {} fun _ _ => rfl

/-- A read finds the value in the view. -/
theorem load {next : Option V → Prog N D V β}
    (h : ∀ value, (next value).CommitsFrom R fun roots view =>
      J roots view ∧ view.get? name = value) :
    (Prog.load name next).CommitsFrom R J := by
  intro o hJ
  unfold Prog.Commits
  split
  · next value hseen =>
    refine h value o fun roots hvalid => ⟨hJ roots hvalid, ?_⟩
    rw [SortedMap.get?_overlay]
    cases hwrite : o.writes.get? name with
    | some staged => simpa [Overlay.seen, hwrite] using hseen
    | none =>
      have hread : o.reads.get? name = some value := by simpa [Overlay.seen, hwrite] using hseen
      simpa using hvalid name value hread
  · next hseen =>
    intro value
    have hnone : o.writes.get? name = none ∧ o.reads.get? name = none := by
      simpa [Overlay.seen] using hseen
    refine h value _ fun roots hvalid => ⟨hJ roots fun other v hread => ?_, ?_⟩
    · refine hvalid other v ?_
      have hother : other ≠ name := by
        rintro rfl
        simp [hnone.2] at hread
      simpa [Overlay.pin, SortedMap.get?_insert, hother.symm] using hread
    · have hread := hvalid name value (by simp [Overlay.pin, SortedMap.get?_insert])
      simpa [SortedMap.get?_overlay, Overlay.pin, hnone.1] using hread

/-- A write changes the view. -/
theorem stage {value : Option V} {next : Prog N D V β}
    (h : next.CommitsFrom R fun roots view => ∃ view0, J roots view0 ∧
      view = view0.set name value) :
    (Prog.stage name value next).CommitsFrom R J := fun _ hJ =>
  h _ fun roots hvalid => ⟨_, hJ roots hvalid, SortedMap.overlay_insert _ _ _ _⟩

theorem stageData {value : Option D} {next : Prog N D V β} (h : next.CommitsFrom R J) :
    (Prog.stageData name value next).CommitsFrom R J := fun o hJ => h (o.stageData name value) hJ

/-- A commit leaves the view in the place of the cells. -/
theorem commit {next : Option (Conflict N V) → Prog N D V β}
    (hdoes : ∀ roots view, J roots view → R roots view)
    (h : ∀ outcome, (next outcome).CommitsFrom R fun roots view => view = roots) :
    (Prog.commit next).CommitsFrom R J := fun _ hJ =>
  ⟨fun s hvalid => hdoes _ _ (hJ s.roots hvalid), fun outcome => h outcome {} fun _ _ => rfl⟩

theorem mono {prog : Prog N D V β} {J' : SortedMap N V → SortedMap N V → Prop}
    (h : prog.CommitsFrom R J) (hJ : ∀ roots view, J' roots view → J roots view) :
    prog.CommitsFrom R J' := fun o hJ' => h o fun roots hvalid => hJ _ _ (hJ' roots hvalid)

end Prog.CommitsFrom

end

section

variable {ι N D V β : Type} [DecidableEq ι] [LinearOrder N] [DecidableEq V]
  {c0 c : Config ι N D V β} {events : List (Event ι N D V)} {Done Undone : β → Prop}

/-- What the commits of programs that are about to start do, they do in every run. -/
theorem Run.commitsFrom {R : ι → SortedMap N V → SortedMap N V → Prop} (h : Run c0 events c)
    (hprog : ∀ i, (c0.procs i).prog.CommitsFrom (R i) fun roots view => view = roots)
    (hstart : ∀ i, (c0.procs i).overlay = {}) :
    ∀ e ∈ events, R e.process e.before.roots e.after.roots := by
  refine h.commits (R := fun i s s' => R i s.roots s'.roots) fun i => ?_
  rw [hstart i]
  exact hprog i {} fun _ _ => rfl

/-! ### Programs that commit once -/

/-- The program returns at once, with a result in `Done`, when a commit has gone through, and
with a result in `Undone` when none has. -/
def Prog.Once (Done Undone : β → Prop) : Prog N D V β → Prop
  | .ret result => Undone result
  | .failed => True
  | .get _ next => ∀ value, (next value).Once Done Undone
  | .list next => ∀ roots, (next roots).Once Done Undone
  | .publish _ _ next => next.Once Done Undone
  | .begin next => next.Once Done Undone
  | .load _ next => ∀ value, (next value).Once Done Undone
  | .stage _ _ next => next.Once Done Undone
  | .stageData _ _ next => next.Once Done Undone
  | .rollback next => next.Once Done Undone
  | .commit next =>
    (∃ result, next none = .ret result ∧ Done result) ∧
      ∀ conflict, (next (some conflict)).Once Done Undone

theorem Process.next_once {s s' : Store N D V} {p p' : Process N D V β} {committed : Bool}
    (hp : p.prog.Once Done Undone) (h : p.next s = some (s', p', committed)) :
    (committed = false → p'.prog.Once Done Undone) ∧
      (committed = true → ∃ result, p'.prog = .ret result ∧ Done result) := by
  unfold Process.next at h
  split at h <;> rename_i hprog <;> rw [hprog] at hp
  case h_11 =>
    split at h
    · cases h
      exact ⟨fun _ => hp.2 _, nofun⟩
    · cases h
      exact ⟨nofun, fun _ => hp.1⟩
  all_goals cases h
  all_goals first | exact ⟨fun _ => hp, nofun⟩ | exact ⟨fun _ => hp _, nofun⟩

/-- A client is in the record of commits exactly as its result tells, and at most once. -/
theorem Run.once (h : Run c0 events c) (hstart : ∀ i, (c0.procs i).prog.Once Done Undone) :
    (events.map Event.process).Nodup ∧ ∀ i,
      ((∀ e ∈ events, e.process ≠ i) → (c.procs i).prog.Once Done Undone) ∧
      ((∃ e ∈ events, e.process = i) → ∃ result, (c.procs i).prog = .ret result ∧ Done result) := by
  have hall := Run.forall_process (fun i events p =>
      (events.filter fun e => e.process = i) = [] ∧ p.prog.Once Done Undone ∨
        (events.filter fun e => e.process = i).length = 1 ∧
          ∃ result, p.prog = .ret result ∧ Done result) ?_ ?_ ?_ ?_ ?_ h
  · refine ⟨nodup_iff_count_le_one.mpr fun i => ?_, fun i => ?_⟩
    · have hcount : (events.map Event.process).count i =
          (events.filter fun e => e.process = i).length := by
        rw [count_eq_countP, countP_map, countP_eq_length_filter]
        rfl
      rw [hcount]
      rcases hall i with ⟨hnone, -⟩ | ⟨hone, -⟩
      · exact (congrArg List.length hnone).le.trans (Nat.zero_le 1)
      · exact hone.le
    · rcases hall i with ⟨hnone, honce⟩ | ⟨hone, hret⟩
      · refine ⟨fun _ => honce, fun ⟨e, he, hi⟩ => ?_⟩
        have hmem : e ∈ events.filter fun e => e.process = i := by simp [he, hi]
        rw [hnone] at hmem
        cases hmem
      · refine ⟨fun hother => ?_, fun _ => hret⟩
        have hnone : (events.filter fun e => e.process = i) = [] := by
          simpa [filter_eq_nil_iff] using hother
        rw [hnone] at hone
        cases hone
  · exact fun i => .inl ⟨rfl, hstart i⟩
  · rintro i events s s' p p' (⟨hnone, honce⟩ | ⟨-, result, hret, -⟩) hnext
    · exact .inl ⟨hnone, (Process.next_once honce hnext).1 rfl⟩
    · simp [Process.next, hret] at hnext
  · rintro i events s s' p p' (⟨hnone, honce⟩ | ⟨-, result, hret, -⟩) hnext
    · exact .inr ⟨by simp [hnone], (Process.next_once honce hnext).2 rfl⟩
    · simp [Process.next, hret] at hnext
  · rintro i events p e hp hother
    simpa [hother] using hp
  · rintro i events s p (⟨hnone, -⟩ | ⟨-, result, hret, -⟩) hrunning
    · exact .inl ⟨hnone, trivial⟩
    · simp [Process.next, hret] at hrunning

end

end Optimistic

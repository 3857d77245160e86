import Mathlib.Data.List.Basic
import Mathlib.Order.Lattice

/-!
# Work-stack loops

`while let Some(frame) = stack.pop()` with an iteration bound: each step replaces
the frame by further frames and emits output. `run` is the bounded loop. `Eval` is
its meaning without a bound, an inductive evaluation relation; it composes over
the stack (`Eval.append`, `Eval.of_forall`), and a stack that evaluates is run to
its output by every large enough bound (`Eval.enough`).

`Enough P` says that `P` holds from some bound on. Such facts combine
(`Enough.and`, `Enough.forall_mem`), so that loops inside loops can share one
bound.
-/

/-- `P` holds for every large enough bound. -/
def Enough (P : Nat → Prop) : Prop := ∃ N, ∀ n, N ≤ n → P n

namespace Enough

variable {P Q : Nat → Prop}

theorem of_forall (h : ∀ n, P n) : Enough P := ⟨0, fun n _ => h n⟩

theorem mono (h : Enough P) (hpq : ∀ n, P n → Q n) : Enough Q := by
  obtain ⟨N, hN⟩ := h
  exact ⟨N, fun n hn => hpq n (hN n hn)⟩

theorem and (hp : Enough P) (hq : Enough Q) : Enough fun n => P n ∧ Q n := by
  obtain ⟨N, hN⟩ := hp
  obtain ⟨M, hM⟩ := hq
  exact ⟨max N M, fun n hn => ⟨hN n (by omega), hM n (by omega)⟩⟩

/-- Finitely many facts share a bound. -/
theorem forall_mem {α : Type*} {xs : List α} {P : α → Nat → Prop}
    (h : ∀ x ∈ xs, Enough (P x)) : Enough fun n => ∀ x ∈ xs, P x n := by
  induction xs with
  | nil => exact of_forall (by simp)
  | cons x xs ih =>
    have hx := h x List.mem_cons_self
    have hxs := ih fun y hy => h y (.tail _ hy)
    exact (hx.and hxs).mono fun n hn => List.forall_mem_cons.mpr hn

end Enough

namespace StackLoop

open List

variable {F O ε : Type*}

/-- The bounded loop; `exhausted` is its answer when the bound is reached. -/
def run (exhausted : ε) (step : F → Except ε (List F × List O)) :
    Nat → List F → Except ε (List O)
  | _, [] => .ok []
  | 0, _ :: _ => .error exhausted
  | fuel + 1, frame :: stack =>
    match step frame with
    | .error e => .error e
    | .ok (frames, out) =>
      match run exhausted step fuel (frames ++ stack) with
      | .error e => .error e
      | .ok rest => .ok (out ++ rest)

/-- The stack is worked off and emits the output. A step may itself run loops under a
bound: what counts is its answer under every large enough one. -/
inductive Eval (step : Nat → F → Except ε (List F × List O)) : List F → List O → Prop
  | nil : Eval step [] []
  | cons {frame : F} {stack frames : List F} {out rest : List O} :
      (Enough fun fuel => step fuel frame = .ok (frames, out)) →
      Eval step (frames ++ stack) rest → Eval step (frame :: stack) (out ++ rest)

variable {exhausted : ε} {step : Nat → F → Except ε (List F × List O)} {out : List O}
  {stack : List F}

theorem Eval.append {xs ys : List F} {a b : List O} (hx : Eval step xs a) (hy : Eval step ys b) :
    Eval step (xs ++ ys) (a ++ b) := by
  induction hx with
  | nil => exact hy
  | cons hstep _ ih =>
    rw [cons_append, append_assoc]
    exact .cons hstep (by rw [← append_assoc]; exact ih)

/-- One frame: its own output, then that of the frames it leaves. -/
theorem Eval.single {frame : F} {frames : List F} {rest : List O}
    (hstep : Enough fun fuel => step fuel frame = .ok (frames, out)) (h : Eval step frames rest) :
    Eval step [frame] (out ++ rest) :=
  .cons hstep (by rwa [append_nil])

/-- A frame that leaves no frames. -/
theorem Eval.leaf {frame : F} {out : List O}
    (hstep : Enough fun fuel => step fuel frame = .ok ([], out)) : Eval step [frame] out := by
  simpa using Eval.single hstep .nil

/-- A stack of frames emits their outputs in order. -/
theorem Eval.of_forall {α : Type*} {f : α → F} {out : α → List O} {xs : List α}
    (h : ∀ x ∈ xs, Eval step [f x] (out x)) : Eval step (xs.map f) (xs.flatMap out) := by
  induction xs with
  | nil => exact .nil
  | cons x xs ih =>
    exact (h x mem_cons_self).append (ih fun y hy => h y (.tail _ hy))

/-- Frames, and frame after frame what each of them stands for. -/
inductive Concat {F O : Type*} (R : F → List O → Prop) : List F → List O → Prop
  | nil : Concat R [] []
  | cons {frame : F} {frames : List F} {d ds : List O} :
      R frame d → Concat R frames ds → Concat R (frame :: frames) (d ++ ds)

namespace Concat

variable {R R' : F → List O → Prop} {frames : List F} {ds : List O}

theorem mono (hR : ∀ frame d, R frame d → R' frame d) (h : Concat R frames ds) :
    Concat R' frames ds := by
  induction h with
  | nil => exact .nil
  | cons hf _ ih => exact .cons (hR _ _ hf) ih

theorem single {frame : F} {d : List O} (h : R frame d) : Concat R [frame] d := by
  simpa using Concat.cons h .nil

theorem append {frames' : List F} {ds' : List O} (h : Concat R frames ds)
    (h' : Concat R frames' ds') : Concat R (frames ++ frames') (ds ++ ds') := by
  induction h with
  | nil => exact h'
  | cons hf _ ih =>
    rw [cons_append, append_assoc]
    exact .cons hf ih

theorem forall_mem (h : Concat R frames ds) : ∀ frame ∈ frames, ∃ d, R frame d := by
  induction h with
  | nil => simp
  | cons hf _ ih => exact forall_mem_cons.mpr ⟨⟨_, hf⟩, ih⟩

/-- Frames that each emit what they stand for do so together. -/
theorem eval (h : Concat R frames ds) (hR : ∀ frame d, R frame d → Eval step [frame] d) :
    Eval step frames ds := by
  induction h with
  | nil => exact .nil
  | cons hf _ ih => exact (hR _ _ hf).append ih

end Concat

/-- A stack that is worked off in so many iterations. -/
inductive Steps (step : F → Except ε (List F × List O)) : Nat → List F → List O → Prop
  | nil : Steps step 0 [] []
  | cons {n : Nat} {frame : F} {stack frames : List F} {out rest : List O} :
      step frame = .ok (frames, out) → Steps step n (frames ++ stack) rest →
      Steps step (n + 1) (frame :: stack) (out ++ rest)

/-- The number of iterations does not depend on the bound inside a step. -/
theorem Eval.steps (h : Eval step stack out) :
    ∃ n, Enough fun fuel => Steps (step fuel) n stack out := by
  induction h with
  | nil => exact ⟨0, .of_forall fun _ => .nil⟩
  | cons hstep _ ih =>
    obtain ⟨n, hn⟩ := ih
    exact ⟨n + 1, (hstep.and hn).mono fun fuel h => .cons h.1 h.2⟩

section Bounded

variable {step : F → Except ε (List F × List O)} {n : Nat} {stack : List F} {out : List O}

theorem Steps.run_eq (h : Steps step n stack out) :
    ∀ fuel, n ≤ fuel → run exhausted step fuel stack = .ok out := by
  induction h with
  | nil => intro fuel _; cases fuel <;> rfl
  | cons hstep _ ih =>
    intro fuel hfuel
    obtain _ | fuel := fuel
    · omega
    simp [run, hstep, ih fuel (by omega)]

/-- An answer under one bound is the answer under every larger one. -/
theorem run_mono {fuel fuel' : Nat} (hle : fuel ≤ fuel')
    (h : run exhausted step fuel stack = .ok out) : run exhausted step fuel' stack = .ok out := by
  induction fuel generalizing fuel' stack out with
  | zero =>
    cases stack with
    | nil =>
      cases h
      cases fuel' <;> rfl
    | cons frame stack => cases h
  | succ fuel ih =>
    obtain _ | fuel' := fuel'
    · omega
    cases stack with
    | nil => exact h
    | cons frame stack =>
      rw [run] at h ⊢
      split at h
      · cases h
      · split at h
        · cases h
        · next hrest => rw [ih (by omega) hrest]; exact h

/-- The loop that stops at the first iteration with output: the stack it leaves and the
output. -/
def advance (exhausted : ε) (step : F → Except ε (List F × List O)) :
    Nat → List F → Except ε (List F × List O)
  | _, [] => .ok ([], [])
  | 0, _ :: _ => .error exhausted
  | fuel + 1, frame :: stack =>
    match step frame with
    | .error e => .error e
    | .ok (frames, out) =>
      if out.isEmpty then advance exhausted step fuel (frames ++ stack)
      else .ok (frames ++ stack, out)

/-- Stopping early splits the output: what is there, and what the remaining stack
emits. There is no output only when there is none at all. -/
theorem Steps.advance_eq (h : Steps step n stack out) (exhausted : ε) (fuel : Nat)
    (hfuel : n ≤ fuel) :
    ∃ m stack' now later, advance exhausted step fuel stack = .ok (stack', now) ∧ m ≤ n ∧
      Steps step m stack' later ∧ out = now ++ later ∧ (now = [] → stack' = []) := by
  induction h generalizing fuel with
  | nil => exact ⟨0, [], [], [], by cases fuel <;> rfl, Nat.le_refl 0, .nil, rfl, fun _ => rfl⟩
  | cons hstep hrest ih =>
    rename_i n frame stack frames out rest
    obtain _ | fuel := fuel
    · omega
    by_cases hout : out = []
    · subst hout
      obtain ⟨m, stack', now, later, heq, hm, hsteps, hsplit, hdone⟩ := ih fuel (by omega)
      exact ⟨m, stack', now, later, by simp [advance, hstep, heq], by omega, hsteps,
        by simpa using hsplit, hdone⟩
    · exact ⟨n, frames ++ stack, out, rest, by simp [advance, hstep, hout], Nat.le_succ n, hrest,
        rfl, fun h => absurd h hout⟩

end Bounded

/-- What evaluates is computed by every large enough bound. -/
theorem Eval.enough (h : Eval step stack out) (exhausted : ε) :
    Enough fun fuel => run exhausted (step fuel) fuel stack = .ok out := by
  obtain ⟨n, N, hN⟩ := h.steps
  exact ⟨max n N, fun fuel hfuel => (hN fuel (by omega)).run_eq fuel (by omega)⟩

/-- Whatever bound a loop is run under, it answers with what its stack evaluates to. -/
theorem Eval.eq_of_run {step : F → Except ε (List F × List O)} {fuel : Nat} {out' : List O}
    (h : Eval (fun _ => step) stack out) (hrun : run exhausted step fuel stack = .ok out') :
    out' = out := by
  obtain ⟨N, hN⟩ := h.enough exhausted
  have hlarge := run_mono (Nat.le_max_left fuel N) hrun
  rw [hN (max fuel N) (Nat.le_max_right fuel N)] at hlarge
  exact (Except.ok.inj hlarge).symm

end StackLoop

import Prolly.Lib.StackLoop

/-!
# Loops with a condition

`while` over a state, under a bound. A step gives nothing when the condition is false. Where a
step keeps an invariant and makes a measure smaller, every large enough bound computes the same
result, and the loop has left its condition when it succeeds (`enough`).
-/

namespace WhileLoop

variable {σ ε : Type*}

/-- The bounded loop; nothing when `fuel` runs out. -/
def run (step : σ → Option (Except ε σ)) : Nat → σ → Option (Except ε σ)
  | fuel, st =>
    match step st with
    | none => some (.ok st)
    | some (.error error) => some (.error error)
    | some (.ok st') =>
      match fuel with
      | 0 => none
      | fuel + 1 => run step fuel st'

variable {step : σ → Option (Except ε σ)} {Inv : σ → Prop} {measure : σ → Nat}

theorem enough
    (hstep : ∀ st st', Inv st → step st = some (.ok st') → Inv st' ∧ measure st' < measure st)
    {st : σ} (hst : Inv st) :
    ∃ result, (Enough fun fuel => run step fuel st = some result) ∧
      ∀ st', result = .ok st' → Inv st' ∧ step st' = none := by
  obtain ⟨n, hn⟩ : ∃ n, measure st < n := ⟨_, Nat.lt_succ_self _⟩
  induction n generalizing st with
  | zero => omega
  | succ n ih =>
    cases hcond : step st with
    | none =>
      refine ⟨.ok st, .of_forall fun fuel => ?_, ?_⟩
      · rw [run, hcond]
      · rintro st' ⟨⟩
        exact ⟨hst, hcond⟩
    | some result =>
      cases result with
      | error error => exact ⟨.error error, .of_forall fun fuel => by rw [run, hcond], nofun⟩
      | ok st' =>
        obtain ⟨hst', hless⟩ := hstep st st' hst hcond
        obtain ⟨result, ⟨N, hN⟩, hresult⟩ := ih hst' (by omega)
        refine ⟨result, ⟨N + 1, fun fuel hfuel => ?_⟩, hresult⟩
        obtain _ | fuel := fuel
        · omega
        rw [run, hcond]
        exact hN fuel (by omega)

/-- Two bounds that compute the loop compute the same. -/
theorem run_unique {st : σ} {r r' : Except ε σ} {fuel fuel' : Nat} (h : run step fuel st = some r)
    (h' : run step fuel' st = some r') : r = r' := by
  rw [run] at h'
  fun_induction run step fuel st generalizing fuel' with
  | case1 fuel st hcond =>
    rw [hcond] at h'
    exact Option.some.inj (h.symm.trans h')
  | case2 fuel st error hcond =>
    rw [hcond] at h'
    exact Option.some.inj (h.symm.trans h')
  | case3 => cases h
  | case4 st st' hcond fuel ih =>
    rw [hcond] at h'
    cases fuel' with
    | zero => cases h'
    | succ fuel' =>
      dsimp only at h'
      rw [run] at h'
      exact ih h h'

end WhileLoop

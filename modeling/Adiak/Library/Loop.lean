import Mathlib.Logic.Basic

/-!
# Loops

A loop is a step function: from a state it goes on in another state, or leaves with a result. `run` gives
it a number of steps.

1. `run_inv`: an invariant of the steps holds where the loop leaves.
2. `run_total`: a loop whose steps lower a number leaves.
3. `run_eq_none`: a loop that goes on under an invariant never leaves.
-/

namespace Loop

variable {σ ρ : Type} {step : σ → σ ⊕ ρ}

/-- `none` if the loop has not left after `n` steps. -/
def run (step : σ → σ ⊕ ρ) : Nat → σ → Option ρ
  | 0, _ => none
  | n + 1, s =>
    match step s with
    | .inl s' => run step n s'
    | .inr r => some r

theorem run_of_inl {s s' : σ} (h : step s = .inl s') (n : Nat) : run step (n + 1) s = run step n s' := by
  rw [run, h]

theorem run_of_inr {s : σ} {r : ρ} (h : step s = .inr r) (n : Nat) : run step (n + 1) s = some r := by
  rw [run, h]

section Rules

variable {Inv : σ → Prop} {Q : ρ → Prop}

theorem run_inv (hstep : ∀ s s', Inv s → step s = .inl s' → Inv s')
    (hexit : ∀ s r, Inv s → step s = .inr r → Q r) {n : Nat} {s : σ} (hs : Inv s) {r : ρ}
    (h : run step n s = some r) : Q r := by
  induction n generalizing s with
  | zero => cases h
  | succ n ih =>
    cases hrun : step s with
    | inl s' =>
      rw [run_of_inl hrun] at h
      exact ih (hstep s s' hs hrun) h
    | inr r' =>
      rw [run_of_inr hrun] at h
      obtain rfl := Option.some.inj h
      exact hexit s r' hs hrun

/-- `measure` bounds the number of steps that are left. -/
theorem run_total (measure : σ → Nat)
    (hstep : ∀ s s', Inv s → step s = .inl s' → Inv s' ∧ measure s' < measure s)
    (hexit : ∀ s r, Inv s → step s = .inr r → Q r) {n : Nat} {s : σ} (hs : Inv s)
    (hn : measure s < n) : ∃ r, run step n s = some r ∧ Q r := by
  induction n generalizing s with
  | zero => exact absurd hn (Nat.not_lt_zero _)
  | succ n ih =>
    cases hrun : step s with
    | inl s' =>
      obtain ⟨hs', hlt⟩ := hstep s s' hs hrun
      rw [run_of_inl hrun]
      exact ih hs' (Nat.lt_of_lt_of_le hlt (Nat.le_of_lt_succ hn))
    | inr r => exact ⟨r, run_of_inr hrun n, hexit s r hs hrun⟩

theorem run_eq_none (hstep : ∀ s, Inv s → ∃ s', step s = .inl s' ∧ Inv s') (n : Nat) {s : σ}
    (hs : Inv s) : run step n s = none := by
  induction n generalizing s with
  | zero => rfl
  | succ n ih =>
    obtain ⟨s', hrun, hs'⟩ := hstep s hs
    rw [run_of_inl hrun]
    exact ih hs'

end Rules

end Loop

import Mathlib.Logic.Basic

/-!
Components driven by calls.  A client makes one call after another, each call
either returns (a new state and a result) or does not return at all, and the
client keeps to the calls that the current state allows.
-/

namespace Mcsos.CallSystem

universe u v w x

/-- A component with state `σ`, calls `α` and results `ρ`.  A call that does
not return has no successor. -/
structure System (σ : Type u) (α : Type v) (ρ : Type w) where
  allowed : σ → α → Prop
  step : σ → α → Option (σ × ρ)

/-- A finite run, with the calls made and the results they returned. -/
inductive Run {σ : Type u} {α : Type v} {ρ : Type w} (M : System σ α ρ) :
    σ → List (α × ρ) → σ → Prop
  | nil (s : σ) : Run M s [] s
  | cons {s t u : σ} {call : α} {result : ρ} {trace : List (α × ρ)}
      (hallowed : M.allowed s call) (hstep : M.step s call = some (t, result))
      (hrest : Run M t trace u) : Run M s ((call, result) :: trace) u

variable {σ : Type u} {α : Type v} {ρ : Type w} {M : System σ α ρ}

/-- What every allowed call preserves, every run preserves. -/
theorem Run.invariant {s t : σ} {trace : List (α × ρ)} (hrun : Run M s trace t)
    (I : σ → Prop)
    (hstep : ∀ s call t result, I s → M.allowed s call →
      M.step s call = some (t, result) → I t)
    (hs : I s) : I t := by
  induction hrun with
  | nil s => exact hs
  | cons hallowed hcall _ ih => exact ih (hstep _ _ _ _ hs hallowed hcall)

/-- The same for a component whose calls all return. -/
theorem Run.invariant_total {next : σ → α → σ × ρ} {s t : σ} {trace : List (α × ρ)}
    (hrun : Run M s trace t) (htotal : ∀ s call, M.step s call = some (next s call))
    (I : σ → Prop) (hnext : ∀ s call, I s → M.allowed s call → I (next s call).1)
    (hs : I s) : I t := by
  refine hrun.invariant I ?_ hs
  intro s call t result hI hallowed hstep
  rw [htotal] at hstep
  have hkept := hnext s call hI hallowed
  rwa [Option.some.inj hstep] at hkept

theorem Run.append {s t u : σ} {first second : List (α × ρ)}
    (hfirst : Run M s first t) (hsecond : Run M t second u) :
    Run M s (first ++ second) u := by
  induction hfirst with
  | nil s => exact hsecond
  | cons hallowed hcall _ ih => exact .cons hallowed hcall (ih hsecond)

/-- A run whose calls all satisfy a condition is a run of the component with that
condition among the allowed calls. -/
theorem Run.restrict {s t : σ} {trace : List (α × ρ)} (hrun : Run M s trace t) (P : α → Prop)
    (hcalls : ∀ call result, (call, result) ∈ trace → P call) :
    Run { M with allowed := fun s call => M.allowed s call ∧ P call } s trace t := by
  induction hrun with
  | nil s => exact .nil s
  | cons hallowed hcall _ ih =>
      refine .cons ⟨hallowed, hcalls _ _ List.mem_cons_self⟩ hcall (ih ?_)
      exact fun call result hmem => hcalls call result (List.mem_cons_of_mem _ hmem)

/-- Calls that leave a relation to another state as it is, while all others are answered alike
on both sides, can be taken out of a run: the rest of it is a run from the other state. -/
theorem Run.purge {s s' t : σ} {trace : List (α × ρ)} (hrun : Run M s trace t)
    (hidden : α → Bool) (R : σ → σ → Prop)
    (hhidden : ∀ s s' call t result, R s s' → M.allowed s call → hidden call = true →
      M.step s call = some (t, result) → R t s')
    (hvisible : ∀ s s' call t result, R s s' → M.allowed s call → hidden call = false →
      M.step s call = some (t, result) →
        M.allowed s' call ∧ ∃ t', M.step s' call = some (t', result) ∧ R t t')
    (hrel : R s s') :
    ∃ t', Run M s' (trace.filter fun event => !hidden event.1) t' ∧ R t t' := by
  induction hrun generalizing s' with
  | nil s => exact ⟨s', .nil s', hrel⟩
  | @cons s t u call result trace hallowed hstep _ ih =>
      rcases hcall : hidden call with _ | _
      · obtain ⟨hallowed', t', hstep', hrel'⟩ := hvisible _ _ _ _ _ hrel hallowed hcall hstep
        obtain ⟨u', hrest, hend⟩ := ih hrel'
        rw [List.filter_cons_of_pos (by rw [hcall]; rfl)]
        exact ⟨u', .cons hallowed' hstep' hrest, hend⟩
      · rw [List.filter_cons_of_neg (by rw [hcall]; decide)]
        exact ih (hhidden _ _ _ _ _ hrel hallowed hcall hstep)

/-- Runs of a specification given as a relation between a state, a call, its
result and the next state. -/
inductive SpecRun {τ : Type x} {α : Type v} {ρ : Type w}
    (spec : τ → α → ρ → τ → Prop) : τ → List (α × ρ) → τ → Prop
  | nil (s : τ) : SpecRun spec s [] s
  | cons {s t u : τ} {call : α} {result : ρ} {trace : List (α × ρ)}
      (hstep : spec s call result t) (hrest : SpecRun spec t trace u) :
      SpecRun spec s ((call, result) :: trace) u

/-- Forward simulation: if every allowed call is matched by a specification
step with the same result, every run is matched by a specification run with
the same calls and results. -/
theorem Run.simulation {τ : Type x} {spec : τ → α → ρ → τ → Prop}
    {s t : σ} {a : τ} {trace : List (α × ρ)} (hrun : Run M s trace t)
    (R : σ → τ → Prop)
    (hstep : ∀ s a call t result, R s a → M.allowed s call →
      M.step s call = some (t, result) → ∃ b, spec a call result b ∧ R t b)
    (hrel : R s a) :
    ∃ b, SpecRun spec a trace b ∧ R t b := by
  induction hrun generalizing a with
  | nil s => exact ⟨a, .nil a, hrel⟩
  | cons hallowed hcall _ ih =>
      obtain ⟨b, hspec, hb⟩ := hstep _ _ _ _ _ hrel hallowed hcall
      obtain ⟨c, hrest, hc⟩ := ih hb
      exact ⟨c, .cons hspec hrest, hc⟩

/-- The same for a component whose calls all return. -/
theorem Run.simulation_total {τ : Type x} {spec : τ → α → ρ → τ → Prop} {next : σ → α → σ × ρ}
    {s t : σ} {a : τ} {trace : List (α × ρ)} (hrun : Run M s trace t)
    (htotal : ∀ s call, M.step s call = some (next s call)) (R : σ → τ → Prop)
    (hnext : ∀ s a call, R s a → M.allowed s call →
      ∃ b, spec a call (next s call).2 b ∧ R (next s call).1 b)
    (hrel : R s a) :
    ∃ b, SpecRun spec a trace b ∧ R t b := by
  refine hrun.simulation R ?_ hrel
  intro s a call t result hR hallowed hstep
  rw [htotal] at hstep
  have hmatch := hnext s a call hR hallowed
  rwa [Option.some.inj hstep] at hmatch

end Mcsos.CallSystem

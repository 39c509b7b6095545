import Mathlib.Logic.Basic

/-!
Loops as their rounds.  A round goes on with a new state or leaves the loop with a result;
the loop ends when finitely many rounds lead to a result.
-/

namespace Mcsos.LoopRounds

universe u v w

/-- From the state, the loop leaves in its `rounds`-th round, with the result. -/
inductive Finishes {σ : Type u} {ρ : Type v} (round : σ → σ ⊕ ρ) : σ → Nat → ρ → Prop
  | leave {s : σ} {r : ρ} (hround : round s = .inr r) : Finishes round s 1 r
  | again {s t : σ} {r : ρ} {rounds : Nat} (hround : round s = .inl t)
      (hrest : Finishes round t rounds r) : Finishes round s (rounds + 1) r

variable {σ : Type u} {ρ : Type v} {ρ' : Type w} {round : σ → σ ⊕ ρ} {round' : σ → σ ⊕ ρ'}

/-- A loop whose rounds make a measure smaller ends. -/
theorem finishes_of_decreasing (measure : σ → Nat)
    (hless : ∀ s t, round s = .inl t → measure t < measure s) (s : σ) :
    ∃ rounds r, rounds ≤ measure s + 1 ∧ Finishes round s rounds r := by
  induction hm : measure s using Nat.strongRecOn generalizing s with
  | ind m ih =>
      rcases hround : round s with t | r
      · have hlt := hless s t hround
        obtain ⟨rounds, r, hle, hrest⟩ := ih (measure t) (hm ▸ hlt) t rfl
        exact ⟨rounds + 1, r, by omega, .again hround hrest⟩
      · exact ⟨1, r, by omega, .leave hround⟩

/-- A loop written with fuel returns the result when there is fuel for the rounds. -/
theorem Finishes.fuel (loop : σ → Nat → ρ)
    (hloop : ∀ s fuel, loop s (fuel + 1) = Sum.elim (fun t => loop t fuel) id (round s))
    {s : σ} {rounds fuel : Nat} {r : ρ} (h : Finishes round s rounds r) (hfuel : rounds ≤ fuel) :
    loop s fuel = r := by
  induction h generalizing fuel with
  | leave hround =>
      obtain ⟨rest, rfl⟩ : ∃ rest, fuel = rest + 1 := ⟨fuel - 1, by omega⟩
      rw [hloop, hround]
      rfl
  | again hround _ ih =>
      obtain ⟨rest, rfl⟩ : ∃ rest, fuel = rest + 1 := ⟨fuel - 1, by omega⟩
      rw [hloop, hround]
      exact ih (by omega)

/-- Two loops over the same states that leave in the same rounds, with matching results. -/
theorem Finishes.simulation (R : ρ → ρ' → Prop)
    (hagain : ∀ s t, round s = .inl t → round' s = .inl t)
    (hleave : ∀ s r, round s = .inr r → ∃ r', round' s = .inr r' ∧ R r r')
    {s : σ} {rounds : Nat} {r : ρ} (h : Finishes round s rounds r) :
    ∃ r', Finishes round' s rounds r' ∧ R r r' := by
  induction h with
  | @leave s r hround =>
      obtain ⟨r', hround', hr⟩ := hleave s r hround
      exact ⟨r', .leave hround', hr⟩
  | again hround _ ih =>
      obtain ⟨r', hrest, hr⟩ := ih
      exact ⟨r', .again (hagain _ _ hround) hrest, hr⟩

end Mcsos.LoopRounds

import Mathlib.Algebra.BigOperators.Group.Finset.Basic
import Mathlib.Data.Fintype.Basic
import Mcsos.CallSystem

/-!
Processes that share a state.  A scheduler picks a process, which then does one
atomic step on its local state and on the shared one; the steps of different
processes are interleaved in any order.
-/

namespace Mcsos.Interleaving

open Mcsos.CallSystem

universe u v w x y

/-- The local states of the processes `ι` and the state they share. -/
structure Config (ι : Type u) (Λ : Type v) (σ : Type w) where
  locals : ι → Λ
  shared : σ

section Steps

variable {ι : Type u} {Λ : Type v} {σ : Type w} {α : Type x} {ρ : Type y} [DecidableEq ι]

/-- The state after process `i` moved. -/
def Config.move (c : Config ι Λ σ) (i : ι) (l : Λ) (g : σ) : Config ι Λ σ :=
  ⟨Function.update c.locals i l, g⟩

@[simp] theorem move_shared (c : Config ι Λ σ) (i : ι) (l : Λ) (g : σ) :
    (c.move i l g).shared = g := rfl

@[simp] theorem move_self (c : Config ι Λ σ) (i : ι) (l : Λ) (g : σ) :
    (c.move i l g).locals i = l := Function.update_self ..

theorem move_other (c : Config ι Λ σ) {i j : ι} (l : Λ) (g : σ) (hne : j ≠ i) :
    (c.move i l g).locals j = c.locals j := Function.update_of_ne hne ..

/-- A statement about every process after a step: one about the process that moved,
and one about each of the others. -/
theorem forall_move (P : ι → Λ → Prop) (c : Config ι Λ σ) {i : ι} {l : Λ} {g : σ}
    (hself : P i l) (hother : ∀ j, j ≠ i → P j (c.locals j)) (j : ι) :
    P j ((c.move i l g).locals j) := by
  rcases eq_or_ne j i with rfl | hne
  · rw [move_self]
    exact hself
  · rw [move_other c l g hne]
    exact hother j hne

/-- A step changes a sum over the processes by what it changes for the one that
moved. -/
theorem sum_move [Fintype ι] (f : Λ → Nat) (c : Config ι Λ σ) (i : ι) (l : Λ) (g : σ) :
    ∑ j, f ((c.move i l g).locals j) + f (c.locals i) = ∑ j, f (c.locals j) + f l := by
  have hrest : ∑ j ∈ Finset.univ.erase i, f ((c.move i l g).locals j) =
      ∑ j ∈ Finset.univ.erase i, f (c.locals j) :=
    Finset.sum_congr rfl fun j hj => by rw [move_other c l g (Finset.ne_of_mem_erase hj)]
  have hbefore := Finset.add_sum_erase Finset.univ (fun j => f (c.locals j)) (Finset.mem_univ i)
  have hafter := Finset.add_sum_erase Finset.univ (fun j => f ((c.move i l g).locals j))
    (Finset.mem_univ i)
  rw [move_self] at hafter
  omega

/-- All interleavings of processes whose atomic steps are given by `step`: a process
in a local state and a shared one takes an action, if it can. -/
def interleave (step : ι → Λ → σ → α → Option (Λ × σ × ρ)) :
    System (Config ι Λ σ) (ι × α) ρ where
  allowed _ _ := True
  step c move :=
    (step move.1 (c.locals move.1) c.shared move.2).map fun next =>
      (c.move move.1 next.1 next.2.1, next.2.2)

theorem interleave_step {step : ι → Λ → σ → α → Option (Λ × σ × ρ)} {c c' : Config ι Λ σ}
    {i : ι} {a : α} {r : ρ} (h : (interleave step).step c (i, a) = some (c', r)) :
    ∃ l g, step i (c.locals i) c.shared a = some (l, g, r) ∧ c' = c.move i l g := by
  obtain ⟨⟨l, g, r'⟩, hstep, heq⟩ := Option.map_eq_some_iff.mp h
  obtain ⟨rfl, rfl⟩ := Prod.mk.inj heq
  exact ⟨l, g, hstep, rfl⟩

end Steps

section Token

variable {ι : Type u} {Λ : Type v} {σ : Type w}

/-- At most one process has the token, and the shared state tells whether one does. -/
structure Token (has : Λ → Prop) (taken : σ → Prop) (c : Config ι Λ σ) : Prop where
  unique : ∀ i j, has (c.locals i) → has (c.locals j) → i = j
  taken_iff : taken c.shared ↔ ∃ i, has (c.locals i)

/-- A step takes the free token, gives back the own one, or does neither. -/
def TokenStep (has : Λ → Prop) (taken : σ → Prop) (l : Λ) (g : σ) (l' : Λ) (g' : σ) : Prop :=
  ¬taken g ∧ has l' ∧ taken g' ∨ has l ∧ ¬has l' ∧ ¬taken g' ∨
    (has l' ↔ has l) ∧ (taken g' ↔ taken g)

variable {has : Λ → Prop} {taken : σ → Prop} {c : Config ι Λ σ} {i : ι} {l : Λ} {g : σ}

theorem token_of_free (hfree : ∀ i, ¬has (c.locals i)) (hshared : ¬taken c.shared) :
    Token has taken c where
  unique i _ hi _ := absurd hi (hfree i)
  taken_iff := ⟨fun h => absurd h hshared, fun ⟨i, hi⟩ => absurd hi (hfree i)⟩

theorem Token.free (h : Token has taken c) (hfree : ¬taken c.shared) (i : ι) :
    ¬has (c.locals i) := fun hi => hfree (h.taken_iff.mpr ⟨i, hi⟩)

theorem Token.step [DecidableEq ι] (h : Token has taken c)
    (hstep : TokenStep has taken (c.locals i) c.shared l g) : Token has taken (c.move i l g) := by
  rcases hstep with ⟨hfree, hl, hg⟩ | ⟨hi, hl, hg⟩ | ⟨hl, hg⟩
  · have hother : ∀ j, has ((c.move i l g).locals j) → j = i := by
      intro j hj
      by_contra hne
      rw [move_other c l g hne] at hj
      exact h.free hfree j hj
    refine ⟨fun j k hj hk => (hother j hj).trans (hother k hk).symm, ?_⟩
    exact iff_of_true hg ⟨i, by rwa [move_self]⟩
  · refine token_of_free (forall_move (fun _ l => ¬has l) c hl fun j hne hj => ?_) hg
    exact hne (h.unique j i hj hi)
  · have hsame : ∀ j, has ((c.move i l g).locals j) ↔ has (c.locals j) :=
      forall_move (fun j l => has l ↔ has (c.locals j)) c hl fun j _ => Iff.rfl
    refine ⟨fun j k hj hk => h.unique j k ((hsame j).mp hj) ((hsame k).mp hk), ?_⟩
    rw [move_shared, hg, h.taken_iff]
    exact exists_congr fun j => (hsame j).symm

end Token

end Mcsos.Interleaving

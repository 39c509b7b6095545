import Mathlib.Logic.Relation
import Mathlib.Order.Basic

/-!
Processes that hold resources and wait for resources.  Each resource has at most
one holder, and each process waits for at most one resource at a time.
-/

namespace Mcsos.WaitForGraph

universe u v w

structure Holding (P : Type u) (L : Type v) where
  waiting : P → Option L
  owner : L → Option P

variable {P : Type u} {L : Type v}

/-- `p` waits for something that `q` holds. -/
def Holding.WaitsFor (s : Holding P L) (p q : P) : Prop :=
  ∃ l, s.waiting p = some l ∧ s.owner l = some q

/-- Every process waits only for something ranked above all that it holds. -/
def Holding.Ranked {R : Type w} [Preorder R] (s : Holding P L) (rank : L → R) : Prop :=
  ∀ p l held, s.waiting p = some l → s.owner held = some p → rank held < rank l

/-- Along a path of waits the rank of what is waited for cannot drop. -/
theorem Holding.Ranked.path {R : Type w} [Preorder R] {s : Holding P L} {rank : L → R}
    (h : s.Ranked rank) {p q : P} (hpath : Relation.TransGen s.WaitsFor p q) {l : L}
    (hwait : s.waiting p = some l) :
    ∃ held, s.owner held = some q ∧ rank l ≤ rank held := by
  induction hpath with
  | single hedge =>
      obtain ⟨l', hl', howner⟩ := hedge
      cases hwait.symm.trans hl'
      exact ⟨l, howner, le_refl _⟩
  | tail _ hedge ih =>
      obtain ⟨held, hheld, hle⟩ := ih
      obtain ⟨l', hl', howner⟩ := hedge
      exact ⟨l', howner, hle.trans (h _ _ _ hl' hheld).le⟩

/-- Ranked waiting has no cycle. -/
theorem Holding.Ranked.acyclic {R : Type w} [Preorder R] {s : Holding P L} {rank : L → R}
    (h : s.Ranked rank) (p : P) : ¬Relation.TransGen s.WaitsFor p p := by
  intro hcycle
  obtain ⟨l, hwait⟩ : ∃ l, s.waiting p = some l := by
    obtain ⟨q, ⟨l, hl, -⟩, -⟩ := Relation.TransGen.head'_iff.mp hcycle
    exact ⟨l, hl⟩
  obtain ⟨held, howner, hle⟩ := h.path hcycle hwait
  exact absurd (h p l held hwait howner) hle.not_gt

end Mcsos.WaitForGraph

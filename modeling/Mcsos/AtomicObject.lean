import Mathlib.Data.List.Flatten
import Mathlib.Logic.Function.Basic
import Mcsos.CallSystem

/-!
Objects whose operations take effect at one point.  A client invokes an operation, at
some later moment the operation is applied to the value of the object as a whole, and
later still its result is returned.  A component whose histories of invocations and
returns are histories of such an object is linearizable.
-/

namespace Mcsos.AtomicObject

open Mcsos.CallSystem

universe u v w x y z s

/-- A client is in no operation, in one that has not taken effect, or in one that has,
with the result that is to be returned. -/
inductive Phase (Op : Type u) (Res : Type v) where
  | idle
  | called (op : Op)
  | done (op : Op) (result : Res)

/-- What a client sees of its operations. -/
inductive Event (ι : Type w) (Op : Type u) (Res : Type v) where
  | invoke (client : ι) (op : Op)
  | respond (client : ι) (op : Op) (result : Res)
deriving DecidableEq, Repr

structure State (ι : Type w) (Op : Type u) (Res : Type v) (A : Type x) where
  value : A
  phase : ι → Phase Op Res

/-- The sequential meaning of the operations.  One that has to wait in a value of the
object has no result there. -/
abbrev Meaning (ι : Type w) (Op : Type u) (Res : Type v) (A : Type x) :=
  ι → Op → A → Option (A × Res)

variable {ι : Type w} {Op : Type u} {Res : Type v} {A : Type x} [DecidableEq ι]

inductive Step (apply : Meaning ι Op Res A) :
    State ι Op Res A → List (Event ι Op Res) → State ι Op Res A → Prop
  | invoke {a : A} {phase : ι → Phase Op Res} {i : ι} (op : Op) (hidle : phase i = .idle) :
      Step apply ⟨a, phase⟩ [.invoke i op] ⟨a, Function.update phase i (.called op)⟩
  | perform {a b : A} {phase : ι → Phase Op Res} {i : ι} {op : Op} {result : Res}
      (hcalled : phase i = .called op) (happly : apply i op a = some (b, result)) :
      Step apply ⟨a, phase⟩ [] ⟨b, Function.update phase i (.done op result)⟩
  | respond {a : A} {phase : ι → Phase Op Res} {i : ι} {op : Op} {result : Res}
      (hdone : phase i = .done op result) :
      Step apply ⟨a, phase⟩ [.respond i op result] ⟨a, Function.update phase i .idle⟩

/-- Some steps, with the events in their order. -/
inductive Execution (apply : Meaning ι Op Res A) :
    State ι Op Res A → List (Event ι Op Res) → State ι Op Res A → Prop
  | nil (s : State ι Op Res A) : Execution apply s [] s
  | cons {s t u : State ι Op Res A} {first rest : List (Event ι Op Res)}
      (hstep : Step apply s first t) (hrest : Execution apply t rest u) :
      Execution apply s (first ++ rest) u

/-- A history that the object can have when it starts with the value `a` and no
client is in an operation. -/
def Linearizable (apply : Meaning ι Op Res A) (a : A) (history : List (Event ι Op Res)) : Prop :=
  ∃ t, Execution apply ⟨a, fun _ => .idle⟩ history t

variable {apply : Meaning ι Op Res A} {s t u : State ι Op Res A}
  {first rest : List (Event ι Op Res)}

theorem Step.execution (h : Step apply s first t) : Execution apply s first t := by
  have hone := Execution.cons h (.nil t)
  rwa [List.append_nil] at hone

theorem Execution.append (hfirst : Execution apply s first t)
    (hrest : Execution apply t rest u) : Execution apply s (first ++ rest) u := by
  induction hfirst with
  | nil => exact hrest
  | cons hstep _ ih =>
      rw [List.append_assoc]
      exact .cons hstep (ih hrest)

/-- A client whose operation takes effect and returns at once. -/
theorem Execution.performAndRespond {a b : A} {phase : ι → Phase Op Res} {i : ι} {op : Op}
    {result : Res} (hcalled : phase i = .called op) (happly : apply i op a = some (b, result)) :
    Execution apply ⟨a, phase⟩ [.respond i op result] ⟨b, Function.update phase i .idle⟩ := by
  have hrespond : Step apply ⟨b, Function.update phase i (.done op result)⟩
      [.respond i op result]
      ⟨b, Function.update (Function.update phase i (.done op result)) i .idle⟩ :=
    .respond (Function.update_self ..)
  rw [Function.update_idem] at hrespond
  exact .cons (.perform hcalled happly) hrespond.execution

section Extend

variable {Op' : Type u} {Res' : Type v} {apply' : Meaning ι Op' Res' A}

def Phase.map (f : Op → Op') (g : Res → Res') : Phase Op Res → Phase Op' Res'
  | .idle => .idle
  | .called op => .called (f op)
  | .done op result => .done (f op) (g result)

def Event.map (f : Op → Op') (g : Res → Res') : Event ι Op Res → Event ι Op' Res'
  | .invoke i op => .invoke i (f op)
  | .respond i op result => .respond i (f op) (g result)

/-- A state of an object as one of an object with more operations, in some of which the
clients with `others` are. -/
def State.extend (f : Op → Op') (g : Res → Res') (others : ι → Option (Phase Op' Res'))
    (s : State ι Op Res A) : State ι Op' Res' A :=
  ⟨s.value, fun i => (others i).getD ((s.phase i).map f g)⟩

theorem State.extend_update (f : Op → Op') (g : Res → Res')
    {others : ι → Option (Phase Op' Res')} (a : A) (phase : ι → Phase Op Res) {i : ι}
    (hself : others i = none) (next : Phase Op Res) :
    State.extend f g others ⟨a, Function.update phase i next⟩ =
      ⟨a, Function.update (State.extend f g others ⟨a, phase⟩).phase i (next.map f g)⟩ := by
  rw [State.extend, State.mk.injEq]
  refine ⟨rfl, ?_⟩
  funext j
  rcases eq_or_ne j i with rfl | hne
  · simp [hself]
  · simp [State.extend, hne]

theorem Step.extend {f : Op → Op'} {g : Res → Res'}
    (hmeaning : ∀ i op a, apply' i (f op) a = (apply i op a).map fun next => (next.1, g next.2))
    {others : ι → Option (Phase Op' Res')} (h : Step apply s first t)
    (hothers : ∀ i, others i ≠ none → s.phase i = .idle ∧ ∀ op, .invoke i op ∉ first) :
    Step apply' (s.extend f g others) (first.map (Event.map f g)) (t.extend f g others) ∧
      ∀ i, others i ≠ none → t.phase i = .idle := by
  -- The client that moves is not one of the others, and these stay as they are.
  have hmoved : ∀ {a b : A} {phase : ι → Phase Op Res} {i : ι} {next : Phase Op Res},
      s = ⟨a, phase⟩ → t = ⟨b, Function.update phase i next⟩ → others i = none →
      ((s.extend f g others).phase i = (phase i).map f g ∧
        t.extend f g others =
          ⟨b, Function.update (s.extend f g others).phase i (next.map f g)⟩) ∧
        ∀ j, others j ≠ none → t.phase j = .idle := by
    rintro a b phase i next rfl rfl hself
    refine ⟨⟨by simp [State.extend, hself], State.extend_update f g b phase hself next⟩, ?_⟩
    intro j hj
    have hne : j ≠ i := by
      rintro rfl
      exact hj hself
    exact (Function.update_of_ne hne ..).trans (hothers j hj).1
  have hbusy : ∀ i, s.phase i ≠ .idle → others i = none := fun i hphase =>
    not_not.mp fun hsome => hphase (hothers i hsome).1
  cases h with
  | @invoke a phase i op hidle =>
      have hself : others i = none := by
        by_contra hsome
        exact (hothers i hsome).2 op (List.mem_singleton_self _)
      obtain ⟨⟨hphase, hnext⟩, hrest⟩ := hmoved rfl rfl hself
      rw [hidle] at hphase
      rw [hnext]
      exact ⟨.invoke (f op) hphase, hrest⟩
  | @perform a b phase i op result hcalled happly =>
      obtain ⟨⟨hphase, hnext⟩, hrest⟩ := hmoved rfl rfl (hbusy i (by simp [hcalled]))
      rw [hcalled] at hphase
      rw [hnext]
      refine ⟨.perform hphase ?_, hrest⟩
      rw [hmeaning, happly]
      rfl
  | @respond a phase i op result hdone =>
      obtain ⟨⟨hphase, hnext⟩, hrest⟩ := hmoved rfl rfl (hbusy i (by simp [hdone]))
      rw [hdone] at hphase
      rw [hnext]
      exact ⟨.respond hphase, hrest⟩

/-- Clients that are idle and invoke nothing can be in other operations meanwhile. -/
theorem Execution.extend {f : Op → Op'} {g : Res → Res'}
    (hmeaning : ∀ i op a, apply' i (f op) a = (apply i op a).map fun next => (next.1, g next.2))
    {others : ι → Option (Phase Op' Res')} {events : List (Event ι Op Res)}
    (h : Execution apply s events t)
    (hothers : ∀ i, others i ≠ none → s.phase i = .idle ∧ ∀ op, .invoke i op ∉ events) :
    Execution apply' (s.extend f g others) (events.map (Event.map f g))
      (t.extend f g others) := by
  induction h with
  | nil => exact .nil _
  | cons hstep _ ih =>
      rw [List.map_append]
      have hfirst := hstep.extend hmeaning fun i hi =>
        ⟨(hothers i hi).1, fun op hmem => (hothers i hi).2 op (List.mem_append_left _ hmem)⟩
      refine .cons hfirst.1 (ih fun i hi => ⟨hfirst.2 i hi, fun op hmem => ?_⟩)
      exact (hothers i hi).2 op (List.mem_append_right _ hmem)

end Extend

/-- If every call of a component is matched by steps of the object with the events that
clients see of the call, all histories of the component are histories of the object. -/
theorem linearizable_of_simulation {σ : Type y} {α : Type z} {ρ : Type s} {M : System σ α ρ}
    (visible : α × ρ → List (Event ι Op Res)) (R : σ → State ι Op Res A → Prop)
    (hstep : ∀ c o call c' result, R c o → M.allowed c call →
      M.step c call = some (c', result) →
      ∃ o', Execution apply o (visible (call, result)) o' ∧ R c' o')
    {c c' : σ} {trace : List (α × ρ)} {a : A} (hstart : R c ⟨a, fun _ => .idle⟩)
    (hrun : Run M c trace c') : Linearizable apply a (trace.flatMap visible) := by
  rw [Linearizable]
  generalize (⟨a, fun _ => .idle⟩ : State ι Op Res A) = o at hstart ⊢
  induction hrun generalizing o with
  | nil => exact ⟨o, .nil o⟩
  | cons hallowed hcall _ ih =>
      obtain ⟨o', hfirst, hnext⟩ := hstep _ _ _ _ _ hstart hallowed hcall
      obtain ⟨t, hrest⟩ := ih o' hnext
      rw [List.flatMap_cons]
      exact ⟨t, hfirst.append hrest⟩

end Mcsos.AtomicObject

import Mathlib.Data.Nat.Basic
import Mcsos.CallSystem
import Mcsos.LockdepStack
import Mcsos.WaitForGraph

namespace Mcsos.LockdepDeadlock

open Mcsos.CallSystem
open Mcsos.LockdepModel
open Mcsos.LockdepStack
open Mcsos.WaitForGraph

universe u v

/-- Where a thread stands: outside of any acquisition, between an accepted
`mcs_lockdep_before_acquire` and the wait that it was made for, or waiting. -/
inductive ThreadMode (L : Type v) where
  | idle
  | granted (classId : UInt32)
  | waiting (lock : L)

structure LockWorld (P : Type u) (L : Type v) where
  lockdep : P → McsLockdepState
  mode : P → ThreadMode L
  owner : L → Option P

/-- The steps of a thread: the two calls of the checker, the start of a wait, the
end of a wait, the release of a lock, and an acquisition given up before the wait. -/
inductive LockAction (P : Type u) (L : Type v) where
  | beforeAcquire (thread : P) (classId : UInt32) (name : Option String)
  | startWait (thread : P) (lock : L)
  | acquire (thread : P) (lock : L)
  | release (thread : P) (lock : L)
  | giveUp (thread : P)
  | afterRelease (thread : P) (classId : UInt32)

variable {P : Type u} {L : Type v}

/-- The discipline of the callers. A thread waits only under an acceptance for the
lock's class, makes no further call before it has the lock, and reports a release
for a class only when it holds no lock of the class. -/
def LockWorld.Allowed (classOf : L → UInt32) (w : LockWorld P L) : LockAction P L → Prop
  | .beforeAcquire thread _ _ => w.mode thread = .idle
  | .startWait thread lock => w.mode thread = .granted (classOf lock)
  | .acquire thread lock => w.mode thread = .waiting lock ∧ w.owner lock = none
  | .release thread lock => w.owner lock = some thread ∧ ∀ l, w.mode thread ≠ .waiting l
  | .giveUp thread => ∃ classId, w.mode thread = .granted classId
  | .afterRelease thread classId =>
      w.mode thread = .idle ∧ ∀ lock, w.owner lock = some thread → classOf lock ≠ classId

section Steps

variable [DecidableEq P] [DecidableEq L]

def LockWorld.step (w : LockWorld P L) : LockAction P L → LockWorld P L × Option McsSync
  | .beforeAcquire thread classId name =>
      let (state, rc) := mcsLockdepBeforeAcquire (w.lockdep thread) classId name
      ({ w with
          lockdep := Function.update w.lockdep thread state
          mode := Function.update w.mode thread
            (if rc = .ok then .granted classId else w.mode thread) }, some rc)
  | .startWait thread lock =>
      ({ w with mode := Function.update w.mode thread (.waiting lock) }, none)
  | .acquire thread lock =>
      ({ w with
          mode := Function.update w.mode thread .idle
          owner := Function.update w.owner lock (some thread) }, none)
  | .release _ lock => ({ w with owner := Function.update w.owner lock none }, none)
  | .giveUp thread => ({ w with mode := Function.update w.mode thread .idle }, none)
  | .afterRelease thread classId =>
      let (state, rc) := mcsLockdepAfterRelease (w.lockdep thread) classId
      ({ w with lockdep := Function.update w.lockdep thread state }, some rc)

def lockSystem (classOf : L → UInt32) :
    System (LockWorld P L) (LockAction P L) (Option McsSync) where
  allowed := LockWorld.Allowed classOf
  step w action := some (w.step action)

end Steps

/-- No thread has called anything, and no lock is held. -/
def startWorld (lockdep : P → McsLockdepState) : LockWorld P L where
  lockdep thread := mcsLockdepInit (lockdep thread)
  mode _ := .idle
  owner _ := none

/-- The wait-for graph of a world. -/
def LockWorld.holding (w : LockWorld P L) : Holding P L where
  waiting thread :=
    match w.mode thread with
    | .waiting lock => some lock
    | _ => none
  owner := w.owner

/-- The classes on the stack of a checker increase. -/
def Increasing (state : McsLockdepState) : Prop :=
  ∀ i j, i < j → j < state.depth → state.heldClass i < state.heldClass j

theorem refused_kept {state : McsLockdepState} {answer : McsLockdepState × McsSync}
    (h : Refused McsLockdepState.violation state answer) :
    answer.2 ≠ .ok ∧ answer.1.depth = state.depth ∧ answer.1.heldClass = state.heldClass := by
  rcases h with rfl | ⟨rc, hne, -, rfl⟩
  · exact ⟨by simp, rfl, rfl⟩
  · exact ⟨hne, rfl, rfl⟩

theorem beforeAcquire_cases {state : McsLockdepState} (hinc : Increasing state)
    (classId : UInt32) (name : Option String) :
    ((mcsLockdepBeforeAcquire state classId name).2 ≠ .ok ∧
      (mcsLockdepBeforeAcquire state classId name).1.depth = state.depth ∧
      (mcsLockdepBeforeAcquire state classId name).1.heldClass = state.heldClass) ∨
    ((mcsLockdepBeforeAcquire state classId name).2 = .ok ∧
      (mcsLockdepBeforeAcquire state classId name).1.depth = state.depth + 1 ∧
      (mcsLockdepBeforeAcquire state classId name).1.heldClass =
        Function.update state.heldClass state.depth classId ∧
      ∀ i, i < state.depth → state.heldClass i < classId) := by
  rcases mcsLockdepBeforeAcquire_cases state classId name with
    hrefused | ⟨⟨-, -, hscan, htop⟩, hpushed⟩
  · exact .inl (refused_kept hrefused)
  · rw [hpushed]
    refine .inr ⟨rfl, rfl, rfl, fun i hi => ?_⟩
    have hne : state.heldClass i ≠ classId := fun heq => hscan (scanHeld_iff.mpr ⟨i, hi, heq⟩)
    have hle : state.heldClass (state.depth - 1) ≤ classId := by
      rw [not_and] at htop
      exact UInt32.not_lt.mp (htop (by omega))
    have hbelow : state.heldClass i ≤ state.heldClass (state.depth - 1) := by
      rcases Nat.lt_or_ge i (state.depth - 1) with hlt | hge
      · exact UInt32.le_of_lt (hinc i (state.depth - 1) hlt (by omega))
      · have heq : i = state.depth - 1 := by omega
        rw [heq]
        exact UInt32.le_refl _
    exact UInt32.lt_of_le_of_ne (UInt32.le_trans hbelow hle) hne

theorem afterRelease_cases (state : McsLockdepState) (classId : UInt32) :
    ((mcsLockdepAfterRelease state classId).1.depth = state.depth ∧
      (mcsLockdepAfterRelease state classId).1.heldClass = state.heldClass) ∨
    (0 < state.depth ∧ state.heldClass (state.depth - 1) = classId ∧
      (mcsLockdepAfterRelease state classId).1.depth = state.depth - 1 ∧
      (mcsLockdepAfterRelease state classId).1.heldClass =
        Function.update state.heldClass (state.depth - 1) 0) := by
  rcases mcsLockdepAfterRelease_cases state classId with hrefused | ⟨⟨hpos, htop⟩, hpopped⟩
  · exact .inl (refused_kept hrefused).2
  · rw [hpopped]
    exact .inr ⟨hpos, htop, rfl, rfl⟩

/-- The class of the acquisition that a thread is in. -/
def ThreadMode.pending (classOf : L → UInt32) : ThreadMode L → Option UInt32
  | .idle => none
  | .granted classId => some classId
  | .waiting lock => some (classOf lock)

/-- The classes of the locks that a thread holds are on its stack, and the class
that it is acquiring is on top and above them. -/
structure ThreadInv (classOf : L → UInt32) (state : McsLockdepState) (mode : ThreadMode L)
    (holds : L → Prop) : Prop where
  increasing : Increasing state
  held : ∀ l, holds l → ∃ i, i < state.depth ∧ state.heldClass i = classOf l
  pending : ∀ c, mode.pending classOf = some c →
    0 < state.depth ∧ state.heldClass (state.depth - 1) = c ∧ ∀ l, holds l → classOf l < c

section Thread

variable {classOf : L → UInt32} {state : McsLockdepState} {mode : ThreadMode L}
  {holds : L → Prop}

theorem ThreadInv.mono (h : ThreadInv classOf state mode holds) {holds' : L → Prop}
    (hsub : ∀ l, holds' l → holds l) : ThreadInv classOf state mode holds' where
  increasing := h.increasing
  held l hl := h.held l (hsub l hl)
  pending c hc := by
    obtain ⟨hpos, htop, hbelow⟩ := h.pending c hc
    exact ⟨hpos, htop, fun l hl => hbelow l (hsub l hl)⟩

theorem ThreadInv.idle (h : ThreadInv classOf state mode holds) :
    ThreadInv classOf state .idle holds :=
  ⟨h.increasing, h.held, fun _ hc => by cases hc⟩

theorem ThreadInv.beforeAcquire (h : ThreadInv classOf state .idle holds) (classId : UInt32)
    (name : Option String) :
    ThreadInv classOf (mcsLockdepBeforeAcquire state classId name).1
      (if (mcsLockdepBeforeAcquire state classId name).2 = .ok then .granted classId else .idle)
      holds := by
  rcases beforeAcquire_cases h.increasing classId name with
    ⟨hrc, hdepth, hclass⟩ | ⟨hrc, hdepth, hclass, habove⟩
  · rw [if_neg hrc]
    refine ⟨?_, ?_, fun _ hc => by cases hc⟩
    · intro i j hij hj
      rw [hclass]
      exact h.increasing i j hij (hdepth ▸ hj)
    · rw [hdepth, hclass]
      exact h.held
  · rw [if_pos hrc]
    have hsame : ∀ i, i < state.depth →
        Function.update state.heldClass state.depth classId i = state.heldClass i := by
      intro i hi
      exact Function.update_of_ne (by omega) _ _
    refine ⟨?_, ?_, ?_⟩
    · intro i j hij hj
      rw [hdepth] at hj
      rw [hclass, hsame i (by omega)]
      rcases Nat.lt_succ_iff_lt_or_eq.mp hj with hlt | rfl
      · rw [hsame j hlt]
        exact h.increasing i j hij hlt
      · rw [Function.update_self]
        exact habove i hij
    · intro l hl
      obtain ⟨i, hi, heq⟩ := h.held l hl
      exact ⟨i, by omega, by rw [hclass, hsame i hi, heq]⟩
    · intro c hc
      cases hc
      refine ⟨by omega, ?_, ?_⟩
      · rw [hclass, hdepth, Nat.add_sub_cancel, Function.update_self]
      · intro l hl
        obtain ⟨i, hi, heq⟩ := h.held l hl
        exact heq ▸ habove i hi

theorem ThreadInv.afterRelease (h : ThreadInv classOf state .idle holds) {classId : UInt32}
    (hreleased : ∀ l, holds l → classOf l ≠ classId) :
    ThreadInv classOf (mcsLockdepAfterRelease state classId).1 .idle holds := by
  rcases afterRelease_cases state classId with
    ⟨hdepth, hclass⟩ | ⟨hpos, htop, hdepth, hclass⟩
  · refine ⟨?_, ?_, fun _ hc => by cases hc⟩
    · intro i j hij hj
      rw [hclass]
      exact h.increasing i j hij (hdepth ▸ hj)
    · rw [hdepth, hclass]
      exact h.held
  · have hsame : ∀ i, i < state.depth - 1 →
        Function.update state.heldClass (state.depth - 1) 0 i = state.heldClass i := by
      intro i hi
      exact Function.update_of_ne (by omega) _ _
    refine ⟨?_, ?_, fun _ hc => by cases hc⟩
    · intro i j hij hj
      rw [hdepth] at hj
      rw [hclass, hsame i (by omega), hsame j hj]
      exact h.increasing i j hij (by omega)
    · intro l hl
      obtain ⟨i, hi, heq⟩ := h.held l hl
      -- The class taken off the stack is not that of `l`, so its slot is below the top.
      have hlow : i ≠ state.depth - 1 := by
        rintro rfl
        exact hreleased l hl (heq.symm.trans htop)
      exact ⟨i, by omega, by rw [hclass, hsame i (by omega), heq]⟩

end Thread

def WorldInv (classOf : L → UInt32) (w : LockWorld P L) : Prop :=
  ∀ thread, ThreadInv classOf (w.lockdep thread) (w.mode thread)
    (fun l => w.owner l = some thread)

theorem worldInv_start (classOf : L → UInt32) (lockdep : P → McsLockdepState) :
    WorldInv classOf (startWorld lockdep : LockWorld P L) := by
  intro t
  refine ⟨fun i j _ hj => ?_, fun l hl => ?_, fun _ hc => by cases hc⟩
  · simp [startWorld, mcsLockdepInit] at hj
  · simp [startWorld] at hl

theorem WorldInv.ranked {classOf : L → UInt32} {w : LockWorld P L} (h : WorldInv classOf w) :
    w.holding.Ranked fun l => (classOf l).toNat := by
  intro t l held hwait howner
  have hmode : w.mode t = .waiting l := by
    simp only [LockWorld.holding] at hwait
    split at hwait
    case h_1 lock hmode =>
      cases hwait
      exact hmode
    · cases hwait
  obtain ⟨-, -, hbelow⟩ := (h t).pending (classOf l) (by rw [hmode]; rfl)
  exact UInt32.lt_iff_toNat_lt.mp (hbelow held howner)

section Interleaving

variable [DecidableEq P] [DecidableEq L] {classOf : L → UInt32} {w : LockWorld P L}

theorem worldInv_step (h : WorldInv classOf w) {action : LockAction P L}
    (hallowed : w.Allowed classOf action) : WorldInv classOf (w.step action).1 := by
  intro t
  cases action with
  | beforeAcquire thread classId name =>
      rcases eq_or_ne t thread with rfl | hne
      · have ht := h t
        rw [show w.mode t = .idle from hallowed] at ht
        simpa [LockWorld.step, show w.mode t = .idle from hallowed] using
          ht.beforeAcquire classId name
      · simpa [LockWorld.step, Function.update_of_ne hne] using h t
  | startWait thread lock =>
      rcases eq_or_ne t thread with rfl | hne
      · obtain ⟨hinc, hheld, hpending⟩ := h t
        rw [show w.mode t = .granted (classOf lock) from hallowed] at hpending
        simp only [LockWorld.step, Function.update_self]
        exact ⟨hinc, hheld, hpending⟩
      · simpa [LockWorld.step, Function.update_of_ne hne] using h t
  | acquire thread lock =>
      obtain ⟨hmode, hfree⟩ := hallowed
      rcases eq_or_ne t thread with rfl | hne
      · obtain ⟨hpos, htop, -⟩ := (h t).pending (classOf lock) (by rw [hmode]; rfl)
        simp only [LockWorld.step, Function.update_self]
        refine ⟨(h t).increasing, ?_, fun _ hc => by cases hc⟩
        intro l hl
        rcases eq_or_ne l lock with rfl | hother
        · exact ⟨_, by omega, htop⟩
        · rw [Function.update_of_ne hother] at hl
          exact (h t).held l hl
      · simp only [LockWorld.step, Function.update_of_ne hne]
        refine (h t).mono fun l hl => ?_
        rcases eq_or_ne l lock with rfl | hother
        · rw [Function.update_self] at hl
          exact absurd (Option.some.inj hl).symm hne
        · rwa [Function.update_of_ne hother] at hl
  | release thread lock =>
      refine (h t).mono fun l hl => ?_
      rcases eq_or_ne l lock with rfl | hother
      · simp [LockWorld.step] at hl
      · simpa [LockWorld.step, Function.update_of_ne hother] using hl
  | giveUp thread =>
      rcases eq_or_ne t thread with rfl | hne
      · simp only [LockWorld.step, Function.update_self]
        exact (h t).idle
      · simpa [LockWorld.step, Function.update_of_ne hne] using h t
  | afterRelease thread classId =>
      obtain ⟨hmode, hreleased⟩ := hallowed
      rcases eq_or_ne t thread with rfl | hne
      · have ht := h t
        rw [hmode] at ht
        simpa [LockWorld.step, hmode] using ht.afterRelease hreleased
      · simpa [LockWorld.step, Function.update_of_ne hne] using h t

/-- In every state that any interleaving reaches, the wait-for graph has no cycle;
no thread waits for a lock that it holds. -/
theorem run_no_deadlock {lockdep : P → McsLockdepState}
    {trace : List (LockAction P L × Option McsSync)}
    (hrun : Run (lockSystem classOf) (startWorld lockdep) trace w) :
    (∀ thread, ¬Relation.TransGen w.holding.WaitsFor thread thread) ∧
      ∀ thread lock, w.mode thread = .waiting lock → w.owner lock ≠ some thread := by
  have hinv : WorldInv classOf w := hrun.invariant_total (fun _ _ => rfl) (WorldInv classOf)
    (fun _ _ hw hallowed => worldInv_step hw hallowed) (worldInv_start classOf lockdep)
  refine ⟨hinv.ranked.acyclic, fun thread lock hmode howner => ?_⟩
  refine hinv.ranked.acyclic thread (.single ⟨lock, ?_, howner⟩)
  simp [LockWorld.holding, hmode]

end Interleaving

def untouchedLockdep : McsLockdepState := ⟨fun _ => 0, fun _ => none, 0, 0⟩

/-- One thread has taken the only lock, the other one has asked for it. -/
def contendedActions : List (LockAction Bool Unit) :=
  [.beforeAcquire false 10 none, .startWait false (), .acquire false (),
    .beforeAcquire true 10 none, .startWait true ()]

def contendedWorld : LockWorld Bool Unit :=
  contendedActions.foldl (fun w action => (w.step action).1) (startWorld fun _ => untouchedLockdep)

theorem run_contendedWorld :
    Run (lockSystem fun _ => 10) (startWorld fun _ => untouchedLockdep)
      (contendedActions.zip [some .ok, none, none, some .ok, none]) contendedWorld := by
  refine .cons rfl rfl (.cons rfl rfl (.cons ⟨rfl, rfl⟩ rfl ?_))
  exact .cons rfl rfl (.cons rfl rfl (.nil _))

theorem run_no_deadlock_contendedWorld :
    contendedWorld.holding.WaitsFor true false ∧
      ¬Relation.TransGen contendedWorld.holding.WaitsFor true true :=
  ⟨⟨(), rfl, rfl⟩, (run_no_deadlock run_contendedWorld).1 true⟩

end Mcsos.LockdepDeadlock

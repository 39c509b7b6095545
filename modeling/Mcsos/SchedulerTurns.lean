import Mathlib.Data.List.Rotate
import Mcsos.SchedulerInvariant

namespace Mcsos.SchedulerTurns

open Mcsos.CallSystem
open Mcsos.PointerChain
open Mcsos.SchedulerInvariant
open Mcsos.SchedulerModel
open Mcsos.SchedulerQueue

section Turns

variable {boot : UInt64} {prepared : List UInt64} {w : SchedWorld} {l : List UInt64}

theorem yield_spec (h : SchedInv boot prepared w l) :
    (mcsosSchedYield w).2 = .ok ∧ Yielded boot prepared w (mcsosSchedYield w).1 l :=
  yield_turn h.queue h.current (.inl h.running)

theorem requeued_of_running (h : SchedInv boot prepared w l) (hboot : w.sched.current ≠ boot) :
    requeued w = [w.sched.current] :=
  if_pos ⟨h.running, h.queue.idle ▸ hboot⟩

theorem requeued_of_idle (h : SchedInv boot prepared w l) (hboot : w.sched.current = boot) :
    requeued w = [] :=
  if_neg fun hrun => hrun.2 (hboot.trans h.queue.idle.symm)

theorem blockCurrent_turn (h : SchedInv boot prepared w l)
    (hok : (mcsosThreadBlockCurrent w).2 = .ok) :
    w.sched.current ≠ boot ∧
      SchedInv boot prepared (mcsosThreadBlockCurrent w).1 (nextTurn boot [] l).2 ∧
      (mcsosThreadBlockCurrent w).1.sched.current = (nextTurn boot [] l).1 := by
  have hargs := not_refused h.queue.initialized h.valid_current
  rw [mcsosThreadBlockCurrent, if_neg hargs] at hok ⊢
  by_cases hidle : w.sched.current = w.sched.idle
  · rw [if_pos hidle] at hok
    cases hok
  · rw [if_neg hidle]
    have hboot : w.sched.current ≠ boot := h.queue.idle ▸ hidle
    have hblocked := h.queue.setState .blocked List.mem_cons_self fun heq => absurd heq hboot
    have hout : requeued (w.setState w.sched.current .blocked) = [] := by
      refine if_neg fun hrun => ?_
      have hstate := hrun.1
      rw [setState_sched, setState_state, if_pos rfl] at hstate
      cases hstate
    obtain ⟨-, hinv, hcurrent, -⟩ := yield_turn hblocked h.current (.inr ⟨by simp, hboot⟩)
    rw [hout] at hinv hcurrent
    exact ⟨hboot, hinv, hcurrent⟩

theorem readyHead_eq_zero (h : SchedInv boot prepared w l) :
    w.sched.readyHead = 0 ↔ l = [] := by
  rcases l with _ | ⟨t, l⟩
  · exact iff_of_true h.queue.queue.linked rfl
  · obtain ⟨hhead, hnull, -⟩ := h.queue.queue.linked
    exact iff_of_false (hhead ▸ hnull) (List.cons_ne_nil t l)

theorem ne_boot_of_mem (h : SchedInv boot prepared w l) {t : UInt64} (ht : t ∈ l) :
    t ≠ boot := fun heq => h.queue.boot_fresh (heq ▸ h.queue.listed t ht)

theorem ready_iff (h : SchedInv boot prepared w l) {t : UInt64} (ht : t ∈ prepared) :
    (w.threads t).state = .ready ↔ t ∈ l := by
  rcases eq_or_ne t w.sched.current with rfl | hne
  · refine iff_of_false ?_ (h.queue.unlisted _ List.mem_cons_self)
    rw [h.running]
    decide
  · rcases h.queue.parked t ht (by simpa using hne) with ⟨hnew, hnot⟩ | hready | ⟨hblocked, hnot⟩
    · refine iff_of_false ?_ hnot
      rw [hnew]
      decide
    · exact iff_of_true hready.1 hready.2
    · refine iff_of_false ?_ hnot
      rw [hblocked]
      decide

theorem parked_not_running {t : UInt64} (h : Parked w l t) : (w.threads t).state ≠ .running := by
  rcases h with ⟨hstate, -⟩ | ⟨hstate, -⟩ | ⟨hstate, -⟩
  all_goals
    rw [hstate]
    decide

/-- No thread but the idle one could run: the ready list is empty and no thread is `READY`. -/
def NothingElseReady (r : SchedRun) : Prop :=
  r.world.sched.readyHead = 0 ∧
    ∀ t ∈ r.prepared, t ≠ r.world.sched.idle → (r.world.threads t).state ≠ .ready

/-- The idle thread runs only when no other thread could. -/
def IdleOnlyAlone (r : SchedRun) : Prop :=
  r.world.sched.current = r.world.sched.idle → NothingElseReady r

theorem nothingElseReady_iff {r : SchedRun} (h : SchedInv boot r.prepared r.world l) :
    NothingElseReady r ↔ l = [] := by
  rw [NothingElseReady, readyHead_eq_zero h]
  refine and_iff_left_of_imp ?_
  rintro rfl t ht - hready
  exact absurd ((ready_iff h ht).mp hready) List.not_mem_nil

theorem idleOnlyAlone_iff {r : SchedRun} (h : SchedInv boot r.prepared r.world l) :
    IdleOnlyAlone r ↔ (r.world.sched.current = boot → l = []) := by
  rw [IdleOnlyAlone, nothingElseReady_iff h, h.queue.idle]

theorem nextTurn_fst_eq_boot (h : SchedInv boot prepared w l) (out : List UInt64) :
    (nextTurn boot out l).1 = boot ↔ l = [] := by
  rcases l with _ | ⟨t, l⟩
  · exact iff_of_true rfl rfl
  · exact iff_of_false (ne_boot_of_mem h List.mem_cons_self) (List.cons_ne_nil t l)

end Turns

section Runs

variable {trampoline boot bootName : UInt64} {w : SchedWorld} {r : SchedRun}
  {trace : List (SchedCall × McsosSchedResult)}

/-- After a yield or a block the idle thread runs only when no other thread could, except after
a yield of the only thread that could: the next thread is picked before this one is queued. -/
theorem run_idleOnlyAlone (hinit : (mcsosSchedulerInit w boot bootName).2 = .ok)
    (hrun : Run (schedSystem trampoline boot) (startRun w boot bootName) trace r)
    {call : SchedCall} (hcall : call = .yield ∨ call = .blockCurrent)
    (hok : (r.step trampoline call).2 = .ok) :
    IdleOnlyAlone (r.step trampoline call).1 ↔
      ¬(call = .yield ∧ r.world.sched.current ≠ r.world.sched.idle ∧
        r.world.sched.readyHead = 0) := by
  obtain ⟨l, h⟩ := schedInv_run hinit hrun
  rw [readyHead_eq_zero h, h.queue.idle]
  rcases hcall with rfl | rfl
  · obtain ⟨-, hinv, hcurrent, -⟩ := yield_spec h
    refine (idleOnlyAlone_iff hinv).trans ?_
    change ((mcsosSchedYield r.world).1.sched.current = boot → _) ↔ _
    rw [hcurrent, nextTurn_fst_eq_boot h]
    by_cases hboot : r.world.sched.current = boot
    · rw [requeued_of_idle h hboot]
      refine iff_of_true ?_ fun hbad => hbad.2.1 hboot
      rintro rfl
      rfl
    · rw [requeued_of_running h hboot]
      constructor
      · rintro halone ⟨-, -, rfl⟩
        exact absurd (halone rfl) (List.cons_ne_nil _ _)
      · intro hcond hempty
        exact absurd ⟨rfl, hboot, hempty⟩ hcond
  · obtain ⟨-, hinv, hcurrent⟩ := blockCurrent_turn h hok
    refine iff_of_true ((idleOnlyAlone_iff hinv).mpr ?_) fun hbad => SchedCall.noConfusion hbad.1
    change (mcsosThreadBlockCurrent r.world).1.sched.current = boot → _
    rw [hcurrent, nextTurn_fst_eq_boot h]
    rintro rfl
    rfl

/-- One thread is prepared and enqueued, and waits while the boot thread runs. -/
def waitingCalls : List SchedCall := [.prepare 8192 0 64 0 65536 8192 1, .enqueue 8192]

def waitingRun : SchedRun := waitingCalls.foldl (fun r call => (r.step 256 call).1) bootRun

theorem run_waitingRun :
    Run (schedSystem 256 4096) bootRun (waitingCalls.zip [.ok, .ok]) waitingRun := by
  refine .cons ⟨by decide, by decide⟩ rfl ?_
  exact .cons ⟨by decide, .inl (by decide)⟩ rfl (.nil _)

/-- Then it runs, and no thread is ready. -/
def soloRun : SchedRun := (waitingRun.step 256 .yield).1

theorem run_soloRun :
    Run (schedSystem 256 4096) bootRun (waitingCalls.zip [.ok, .ok] ++ [(.yield, .ok)]) soloRun :=
  run_waitingRun.append (.cons trivial rfl (.nil _))

/-- It blocks, and the idle thread runs alone. -/
theorem run_idleOnlyAlone_soloRun :
    (soloRun.step 256 .blockCurrent).1.world.sched.current = 4096 ∧
      IdleOnlyAlone (soloRun.step 256 .blockCurrent).1 :=
  ⟨by decide,
    (run_idleOnlyAlone (by decide) run_soloRun (.inr rfl) (by decide)).mpr (by decide)⟩

/-- The only thread that can run yields, and the idle thread runs while it waits. -/
theorem not_idleOnlyAlone_soloRun :
    Run (schedSystem 256 4096) bootRun (waitingCalls.zip [.ok, .ok] ++ [(.yield, .ok)]) soloRun ∧
      (soloRun.step 256 .yield).2 = .ok ∧ ¬IdleOnlyAlone (soloRun.step 256 .yield).1 := by
  refine ⟨run_soloRun, by decide, fun halone => ?_⟩
  have hhead : (soloRun.step 256 .yield).1.world.sched.readyHead = 8192 := by decide
  have hempty := (halone (by decide)).1
  rw [hhead] at hempty
  cases hempty

/-- The thread objects: the boot thread and the prepared ones. -/
def IsThread (boot : UInt64) (r : SchedRun) (t : UInt64) : Prop := t = boot ∨ t ∈ r.prepared

/-- The current thread runs, and the idle thread keeps the state `RUNNING` beside it; so exactly
one thread is `RUNNING` while the current thread is the idle one, and two are otherwise. -/
theorem run_running (hinit : (mcsosSchedulerInit w boot bootName).2 = .ok)
    (hrun : Run (schedSystem trampoline boot) (startRun w boot bootName) trace r) :
    IsThread boot r r.world.sched.current ∧ IsThread boot r r.world.sched.idle ∧
      (∀ t, IsThread boot r t → ((r.world.threads t).state = .running ↔
        t = r.world.sched.current ∨ t = r.world.sched.idle)) ∧
      ((∃! t, IsThread boot r t ∧ (r.world.threads t).state = .running) ↔
        r.world.sched.current = r.world.sched.idle) := by
  obtain ⟨l, h⟩ := schedInv_run hinit hrun
  have hidle := h.queue.idle
  have hrunning : ∀ t, IsThread boot r t → ((r.world.threads t).state = .running ↔
      t = r.world.sched.current ∨ t = r.world.sched.idle) := by
    rintro t ht
    constructor
    · intro hstate
      rcases ht with rfl | ht
      · exact .inr hidle.symm
      · by_contra hother
        rw [not_or] at hother
        exact parked_not_running (h.queue.parked t ht (by simpa using hother.1)) hstate
    · rintro (rfl | rfl)
      · exact h.running
      · rw [hidle]
        exact h.queue.boot_running
  refine ⟨h.current, .inl hidle, hrunning, ?_, ?_⟩
  · rintro ⟨t, -, hunique⟩
    rw [hunique _ ⟨h.current, h.running⟩,
      hunique _ ⟨.inl hidle, (hrunning _ (.inl hidle)).mpr (.inr rfl)⟩]
  · intro hsame
    refine ⟨_, ⟨h.current, h.running⟩, ?_⟩
    rintro t ⟨ht, hstate⟩
    rcases (hrunning t ht).mp hstate with heq | heq
    · exact heq
    · exact heq.trans hsame.symm

theorem run_running_soloRun :
    {t | IsThread 4096 soloRun t ∧ (soloRun.world.threads t).state = .running} = {8192, 4096} := by
  have hcurrent : soloRun.world.sched.current = 8192 := by decide
  have hidle : soloRun.world.sched.idle = 4096 := by decide
  obtain ⟨hthread, hboot, hrunning, -⟩ := run_running (by decide) run_soloRun
  rw [hcurrent] at hthread
  rw [hidle] at hboot
  rw [hcurrent, hidle] at hrunning
  ext t
  constructor
  · rintro ⟨ht, hstate⟩
    exact (hrunning t ht).mp hstate
  · rintro (rfl | rfl)
    · exact ⟨hthread, (hrunning _ hthread).mpr (.inl rfl)⟩
    · exact ⟨hboot, (hrunning _ hboot).mpr (.inr rfl)⟩

/-- The boot thread is still `RUNNING` when another one runs. -/
theorem two_running_soloRun :
    Run (schedSystem 256 4096) bootRun (waitingCalls.zip [.ok, .ok] ++ [(.yield, .ok)]) soloRun ∧
      soloRun.world.sched.current = 8192 ∧
      ¬∃! t, IsThread 4096 soloRun t ∧ (soloRun.world.threads t).state = .running := by
  refine ⟨run_soloRun, by decide, ?_⟩
  rintro ⟨t, -, hunique⟩
  have hboot := hunique 4096 ⟨.inl rfl, by decide⟩
  have hother := hunique 8192 ⟨.inr (by decide), by decide⟩
  rw [← hboot] at hother
  cases hother

end Runs

/-- The world after some yields in a row. -/
def yieldTimes (w : SchedWorld) : Nat → SchedWorld
  | 0 => w
  | k + 1 => (mcsosSchedYield (yieldTimes w k)).1

/-- The current thread, and behind it the ready list, are the threads of `order`. -/
def InOrder (w : SchedWorld) (order : List UInt64) : Prop :=
  ∃ l, Linked (fun t => (w.threads t).next) 0 w.sched.readyHead l ∧ order = w.sched.current :: l

/-- The threads that take turns: the idle thread is not one of them. -/
def runnable (w : SchedWorld) (l : List UInt64) : List UInt64 :=
  if w.sched.current = w.sched.idle then l else w.sched.current :: l

/-- Yields turn the threads round, from a state with the ready list `l`. -/
structure RoundRobin (w : SchedWorld) (l : List UInt64) : Prop where
  ok : ∀ k, (mcsosSchedYield (yieldTimes w k)).2 = .ok
  running : w.sched.current ≠ w.sched.idle → ∀ k,
    InOrder (yieldTimes w k) ((w.sched.current :: l).rotate k) ∧
      (yieldTimes w k).sched.contextSwitches = w.sched.contextSwitches + UInt64.ofNat k
  idle : w.sched.current = w.sched.idle → ∀ k, 1 ≤ k →
    InOrder (yieldTimes w k) (l.rotate (k - 1)) ∧ w.sched.idle ∉ l.rotate (k - 1)
  fair : ∀ t ∈ runnable w l, ∀ j, ∃ i, j < i ∧ i ≤ j + (runnable w l).length ∧
    (yieldTimes w i).sched.current = t

theorem yieldTimes_succ (w : SchedWorld) (k : Nat) :
    yieldTimes w (k + 1) = yieldTimes (mcsosSchedYield w).1 k := by
  induction k with
  | zero => rfl
  | succ k ih => rw [yieldTimes, ih, yieldTimes]

theorem exists_mod_eq {n m : Nat} (hm : m < n) (j : Nat) : ∃ i, j ≤ i ∧ i < j + n ∧ i % n = m := by
  have hsplit := Nat.div_add_mod j n
  have hlt := Nat.mod_lt j (Nat.zero_lt_of_lt hm)
  rcases Nat.lt_or_ge m (j % n) with hbefore | hafter
  · refine ⟨n * (j / n + 1) + m, ?_, ?_, ?_⟩
    · rw [Nat.mul_add, Nat.mul_one]
      omega
    · rw [Nat.mul_add, Nat.mul_one]
      omega
    · rw [Nat.mul_add_mod, Nat.mod_eq_of_lt hm]
  · refine ⟨n * (j / n) + m, by omega, by omega, ?_⟩
    rw [Nat.mul_add_mod, Nat.mod_eq_of_lt hm]

theorem InOrder.current_eq {w : SchedWorld} {order : List UInt64} {k m : Nat}
    (h : InOrder w (order.rotate k)) (hm : m < order.length) (hk : k % order.length = m) :
    w.sched.current = order[m] := by
  obtain ⟨l, -, horder⟩ := h
  have hhead := List.head?_rotate (l := order) (n := m) hm
  rw [← hk, List.rotate_mod, horder, List.head?_cons, hk, List.getElem?_eq_getElem hm] at hhead
  exact Option.some.inj hhead

theorem exists_turn {order : List UInt64} {world : Nat → SchedWorld}
    (h : ∀ k, InOrder (world k) (order.rotate k)) {t : UInt64} (ht : t ∈ order) (j : Nat) :
    ∃ i, j ≤ i ∧ i < j + order.length ∧ (world i).sched.current = t := by
  obtain ⟨m, hm, rfl⟩ := List.getElem_of_mem ht
  obtain ⟨i, hle, hlt, hmod⟩ := exists_mod_eq hm j
  exact ⟨i, hle, hlt, (h i).current_eq hm hmod⟩

section RoundRobin

variable {boot : UInt64} {prepared : List UInt64} {w : SchedWorld} {l : List UInt64}

theorem inOrder_of_inv (h : SchedInv boot prepared w l) : InOrder w (w.sched.current :: l) :=
  ⟨l, h.queue.queue.linked, rfl⟩

theorem yield_cons {t : UInt64} (h : SchedInv boot prepared w (t :: l))
    (hboot : w.sched.current ≠ boot) :
    SchedInv boot prepared (mcsosSchedYield w).1 (l ++ [w.sched.current]) ∧
      (mcsosSchedYield w).1.sched.current = t ∧
      (mcsosSchedYield w).1.sched.contextSwitches = w.sched.contextSwitches + 1 := by
  obtain ⟨-, hinv, hcurrent, hswitches⟩ := yield_spec h
  rw [requeued_of_running h hboot] at hinv hcurrent
  rw [if_neg fun hstay => hboot hstay.1] at hswitches
  exact ⟨hinv, hcurrent, hswitches⟩

theorem yield_idle_cons {t : UInt64} (h : SchedInv boot prepared w (t :: l))
    (hboot : w.sched.current = boot) :
    SchedInv boot prepared (mcsosSchedYield w).1 l ∧
      (mcsosSchedYield w).1.sched.current = t := by
  obtain ⟨-, hinv, hcurrent, -⟩ := yield_spec h
  rw [requeued_of_idle h hboot, nextTurn, List.append_nil] at hinv
  rw [requeued_of_idle h hboot] at hcurrent
  exact ⟨hinv, hcurrent⟩

theorem exists_inv_yieldTimes (h : SchedInv boot prepared w l) (k : Nat) :
    ∃ l', SchedInv boot prepared (yieldTimes w k) l' := by
  induction k with
  | zero => exact ⟨l, h⟩
  | succ k ih =>
      obtain ⟨l', h'⟩ := ih
      exact ⟨_, (yield_spec h').2.inv⟩

theorem yieldTimes_running (h : SchedInv boot prepared w l) (hboot : w.sched.current ≠ boot)
    (hne : l ≠ []) (k : Nat) :
    ∃ l', SchedInv boot prepared (yieldTimes w k) l' ∧ l' ≠ [] ∧
      (yieldTimes w k).sched.current ≠ boot ∧
      (w.sched.current :: l).rotate k = (yieldTimes w k).sched.current :: l' ∧
      (yieldTimes w k).sched.contextSwitches = w.sched.contextSwitches + UInt64.ofNat k := by
  induction k with
  | zero => exact ⟨l, h, hne, hboot, List.rotate_zero _, (UInt64.add_zero _).symm⟩
  | succ k ih =>
      obtain ⟨l', h', hne', hboot', horder, hswitches⟩ := ih
      obtain ⟨t, rest, rfl⟩ := List.exists_cons_of_ne_nil hne'
      obtain ⟨hinv, hcurrent, hcount⟩ := yield_cons h' hboot'
      refine ⟨_, hinv, by simp, ?_, ?_, ?_⟩
      · rw [yieldTimes, hcurrent]
        exact ne_boot_of_mem h' List.mem_cons_self
      · rw [yieldTimes, hcurrent, ← List.rotate_rotate, horder, List.rotate_cons_succ,
          List.rotate_zero, List.cons_append]
      · rw [yieldTimes, hcount, hswitches, UInt64.ofNat_add, UInt64.add_assoc]
        rfl

theorem yieldTimes_ok (h : SchedInv boot prepared w l) (k : Nat) :
    (mcsosSchedYield (yieldTimes w k)).2 = .ok := by
  obtain ⟨l', h'⟩ := exists_inv_yieldTimes h k
  exact (yield_spec h').1

theorem roundRobin_of_running (h : SchedInv boot prepared w l) (hboot : w.sched.current ≠ boot)
    (hne : l ≠ []) : RoundRobin w l := by
  have hidle : w.sched.current ≠ w.sched.idle := h.queue.idle.symm ▸ hboot
  have hturns : ∀ k, InOrder (yieldTimes w k) ((w.sched.current :: l).rotate k) := by
    intro k
    obtain ⟨l', h', -, -, horder, -⟩ := yieldTimes_running h hboot hne k
    rw [horder]
    exact inOrder_of_inv h'
  refine ⟨yieldTimes_ok h, fun _ k => ⟨hturns k, ?_⟩, fun heq => absurd heq hidle, ?_⟩
  · obtain ⟨l', -, -, -, -, hswitches⟩ := yieldTimes_running h hboot hne k
    exact hswitches
  · intro t ht j
    rw [runnable, if_neg hidle] at ht ⊢
    obtain ⟨i, hle, hlt, hcurrent⟩ := exists_turn hturns ht (j + 1)
    exact ⟨i, hle, by omega, hcurrent⟩

theorem roundRobin_of_idle (h : SchedInv boot prepared w l) (hboot : w.sched.current = boot)
    (hlen : 2 ≤ l.length) : RoundRobin w l := by
  have hidle : w.sched.current = w.sched.idle := hboot.trans h.queue.idle.symm
  obtain ⟨t, rest, rfl⟩ : ∃ t rest, l = t :: rest :=
    List.exists_cons_of_length_pos (Nat.lt_of_lt_of_le (by decide) hlen)
  have hne : rest ≠ [] := by
    rintro rfl
    rw [List.length_singleton] at hlen
    exact absurd hlen (by decide)
  obtain ⟨hinv, hcurrent⟩ := yield_idle_cons h hboot
  -- After the first yield a thread runs and others wait.
  have hturns : ∀ k, InOrder (yieldTimes w (k + 1)) ((t :: rest).rotate k) := by
    intro k
    have hnext : (mcsosSchedYield w).1.sched.current ≠ boot := by
      rw [hcurrent]
      exact ne_boot_of_mem h List.mem_cons_self
    obtain ⟨l', h', -, -, horder, -⟩ := yieldTimes_running hinv hnext hne k
    rw [hcurrent] at horder
    rw [yieldTimes_succ, horder]
    exact inOrder_of_inv h'
  refine ⟨yieldTimes_ok h, fun hother => absurd hidle hother, fun _ k hk => ?_, ?_⟩
  · obtain ⟨k, rfl⟩ := Nat.exists_eq_add_of_le' hk
    refine ⟨hturns k, fun hmem => ?_⟩
    exact ne_boot_of_mem h (List.mem_rotate.mp hmem) h.queue.idle
  · intro x hx j
    rw [runnable, if_pos hidle] at hx ⊢
    obtain ⟨i, hle, hlt, hturn⟩ := exists_turn hturns hx j
    exact ⟨i + 1, by omega, hlt, hturn⟩

theorem not_roundRobin_of_single {t : UInt64} (h : SchedInv boot prepared w [t])
    (hboot : w.sched.current = boot) : ¬RoundRobin w [t] := by
  intro hrobin
  obtain ⟨hinv, hcurrent⟩ := yield_idle_cons h hboot
  obtain ⟨-, -, hback, -⟩ := yield_spec hinv
  obtain ⟨⟨l, -, horder⟩, -⟩ := hrobin.idle (hboot.trans h.queue.idle.symm) 2 (by decide)
  have hhead : (yieldTimes w 2).sched.current = boot := hback
  rw [List.rotate_singleton, hhead] at horder
  exact ne_boot_of_mem h List.mem_cons_self (List.cons.inj horder).1

end RoundRobin

/-- In every reachable state in which threads wait, yields turn them round, unless the idle
thread runs and exactly one thread waits. -/
theorem run_roundRobin {trampoline boot bootName : UInt64} {w : SchedWorld} {r : SchedRun}
    {trace : List (SchedCall × McsosSchedResult)} {l : List UInt64}
    (hinit : (mcsosSchedulerInit w boot bootName).2 = .ok)
    (hrun : Run (schedSystem trampoline boot) (startRun w boot bootName) trace r)
    (hlist : Linked (fun t => (r.world.threads t).next) 0 r.world.sched.readyHead l)
    (hne : l ≠ []) :
    RoundRobin r.world l ↔ ¬(r.world.sched.current = r.world.sched.idle ∧ l.length = 1) := by
  obtain ⟨l', h⟩ := schedInv_run hinit hrun
  obtain rfl := h.queue.queue.linked.unique hlist
  rw [h.queue.idle]
  by_cases hboot : r.world.sched.current = boot
  · rw [and_iff_right hboot]
    constructor
    · rintro hrobin hlen
      obtain ⟨t, rfl⟩ := List.length_eq_one_iff.mp hlen
      exact not_roundRobin_of_single h hboot hrobin
    · intro hlen
      have hpos := List.length_pos_of_ne_nil hne
      exact roundRobin_of_idle h hboot (by omega)
  · exact iff_of_true (roundRobin_of_running h hboot hne) fun hbad => hboot hbad.1

/-- Two threads are enqueued, and the first one runs. -/
def pairCalls : List SchedCall :=
  [.prepare 8192 0 64 0 65536 8192 1, .prepare 12288 0 64 0 131072 8192 2, .enqueue 8192,
    .enqueue 12288, .yield]

def pairRun : SchedRun := pairCalls.foldl (fun r call => (r.step 256 call).1) bootRun

theorem run_pairRun :
    Run (schedSystem 256 4096) bootRun (pairCalls.zip [.ok, .ok, .ok, .ok, .ok]) pairRun := by
  refine .cons ⟨by decide, by decide⟩ rfl (.cons ⟨by decide, by decide⟩ rfl ?_)
  refine .cons ⟨by decide, .inl (by decide)⟩ rfl (.cons ⟨by decide, .inl (by decide)⟩ rfl ?_)
  exact .cons trivial rfl (.nil _)

theorem run_roundRobin_pairRun : RoundRobin pairRun.world [12288] := by
  have hlist : Linked (fun t => (pairRun.world.threads t).next) 0 pairRun.world.sched.readyHead
      [12288] := by
    rw [linked_cons, linked_nil]
    decide
  exact (run_roundRobin (by decide) run_pairRun hlist (by decide)).mpr (by decide)

/-- After two yields the idle thread runs again, before the only thread that waits. -/
theorem not_roundRobin_waitingRun :
    Run (schedSystem 256 4096) bootRun (waitingCalls.zip [.ok, .ok]) waitingRun ∧
      Linked (fun t => (waitingRun.world.threads t).next) 0 waitingRun.world.sched.readyHead
        [8192] ∧
      waitingRun.world.sched.current = waitingRun.world.sched.idle ∧
      (yieldTimes waitingRun.world 2).sched.current = 4096 ∧
      ¬RoundRobin waitingRun.world [8192] := by
  refine ⟨run_waitingRun, ?_, by decide, by decide, ?_⟩
  · rw [linked_cons, linked_nil]
    decide
  intro hrobin
  obtain ⟨⟨l, -, horder⟩, -⟩ := hrobin.idle (by decide) 2 (by decide)
  have hhead : (yieldTimes waitingRun.world 2).sched.current = 4096 := by decide
  rw [hhead] at horder
  cases (List.cons.inj horder).1

end Mcsos.SchedulerTurns

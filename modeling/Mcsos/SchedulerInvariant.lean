import Mcsos.CallSystem
import Mcsos.SchedulerQueue

namespace Mcsos.SchedulerInvariant

open Mcsos.CallSystem
open Mcsos.PointerChain
open Mcsos.SchedulerModel
open Mcsos.SchedulerQueue

/-- Where a thread is that does not run. -/
def Parked (w : SchedWorld) (l : List UInt64) (t : UInt64) : Prop :=
  (w.threads t).state = .new ∧ t ∉ l ∨ (w.threads t).state = .ready ∧ t ∈ l ∨
    (w.threads t).state = .blocked ∧ t ∉ l

/-- The ready queue is `l`, and every prepared thread is parked, except those in
`exempt`, of which nothing is said but that they are not in the queue. -/
structure QueueInv (boot : UInt64) (prepared : List UInt64) (w : SchedWorld)
    (l exempt : List UInt64) : Prop where
  initialized : w.sched.initialized = true
  idle : w.sched.idle = boot
  boot_valid : validThreadObject w boot = true
  boot_running : (w.threads boot).state = .running
  boot_fresh : boot ∉ prepared
  queue : ReadyQueue w l
  listed : ∀ t ∈ l, t ∈ prepared
  valid : ∀ t ∈ prepared, validThreadObject w t = true
  unlisted : ∀ t ∈ exempt, t ∉ l
  parked : ∀ t ∈ prepared, t ∉ exempt → Parked w l t

/-- The invariant between calls: the running thread is the only exception. -/
structure SchedInv (boot : UInt64) (prepared : List UInt64) (w : SchedWorld)
    (l : List UInt64) : Prop where
  queue : QueueInv boot prepared w l [w.sched.current]
  current : w.sched.current = boot ∨ w.sched.current ∈ prepared
  running : (w.threads w.sched.current).state = .running

/-- The thread that a yield picks, and the ready list behind it once the threads of `requeued`
are at its end. -/
def nextTurn (idle : UInt64) (requeued : List UInt64) : List UInt64 → UInt64 × List UInt64
  | [] => (idle, requeued)
  | t :: l => (t, l ++ requeued)

theorem nextTurn_eq (idle : UInt64) (requeued l : List UInt64) :
    nextTurn idle requeued l = ((nextTurn idle [] l).1, (nextTurn idle [] l).2 ++ requeued) := by
  rcases l with _ | ⟨t, l⟩
  · rfl
  · rw [nextTurn, nextTurn, List.append_nil]

/-- What a yield puts back into the queue: the thread that runs, unless it is the idle one. -/
def requeued (w : SchedWorld) : List UInt64 :=
  if (w.threads w.sched.current).state = .running ∧ w.sched.current ≠ w.sched.idle then
    [w.sched.current]
  else []

section Steps

variable {boot : UInt64} {prepared : List UInt64} {w w' : SchedWorld} {l exempt : List UInt64}

theorem validThreadObject_congr {t : UInt64}
    (hmagic : (w'.threads t).magic = (w.threads t).magic) :
    validThreadObject w' t = validThreadObject w t := by
  rw [validThreadObject, validThreadObject, hmagic]

theorem QueueInv.valid_of (h : QueueInv boot prepared w l exempt) {t : UInt64}
    (ht : t = boot ∨ t ∈ prepared) : validThreadObject w t = true := by
  rcases ht with rfl | hmem
  · exact h.boot_valid
  · exact h.valid t hmem

theorem QueueInv.congr (h : QueueInv boot prepared w l exempt) (hqueue : ReadyQueue w' l)
    (hinit : w'.sched.initialized = w.sched.initialized) (hidle : w'.sched.idle = w.sched.idle)
    (hmagic : ∀ t, (w'.threads t).magic = (w.threads t).magic)
    (hboot : (w'.threads boot).state = .running)
    (hstate : ∀ t ∈ prepared, t ∉ exempt → (w'.threads t).state = (w.threads t).state) :
    QueueInv boot prepared w' l exempt where
  initialized := hinit.trans h.initialized
  idle := hidle.trans h.idle
  boot_valid := (validThreadObject_congr (hmagic boot)).trans h.boot_valid
  boot_running := hboot
  boot_fresh := h.boot_fresh
  queue := hqueue
  listed := h.listed
  valid t ht := (validThreadObject_congr (hmagic t)).trans (h.valid t ht)
  unlisted := h.unlisted
  parked t ht hnot := by
    rw [Parked, hstate t ht hnot]
    exact h.parked t ht hnot

theorem QueueInv.park (h : QueueInv boot prepared w l exempt) {rest : List UInt64}
    (hrest : ∀ t ∈ rest, t ∈ exempt)
    (hparked : ∀ t ∈ prepared, t ∉ rest → t ∈ exempt → Parked w l t) :
    QueueInv boot prepared w l rest where
  initialized := h.initialized
  idle := h.idle
  boot_valid := h.boot_valid
  boot_running := h.boot_running
  boot_fresh := h.boot_fresh
  queue := h.queue
  listed := h.listed
  valid := h.valid
  unlisted t ht := h.unlisted t (hrest t ht)
  parked t ht hnot := by
    by_cases hexempt : t ∈ exempt
    · exact hparked t ht hnot hexempt
    · exact h.parked t ht hexempt

theorem QueueInv.setState (h : QueueInv boot prepared w l exempt) {t : UInt64}
    (state : McsosThreadState) (hexempt : t ∈ exempt) (hboot : t = boot → state = .running) :
    QueueInv boot prepared (w.setState t state) l exempt := by
  refine h.congr (h.queue.congr rfl rfl rfl fun x _ => setState_next w t x state) rfl rfl
    (fun x => setState_magic w t x state) ?_ fun x _ hx => ?_
  · rw [setState_state]
    split
    case isTrue heq => exact hboot heq.symm
    case isFalse => exact h.boot_running
  · have hne : x ≠ t := fun heq => hx (heq ▸ hexempt)
    rw [setState_state, if_neg hne]

theorem QueueInv.enqueue (h : QueueInv boot prepared w l exempt) {t : UInt64}
    (ht : t ∈ prepared) (hnot : t ∉ l)
    (hstate : (w.threads t).state = .new ∨ (w.threads t).state = .ready ∨
      (w.threads t).state = .blocked)
    (rest : List UInt64) (hrest : ∀ x, x ∈ rest ↔ x ∈ exempt ∧ x ≠ t) :
    (mcsosSchedEnqueue w t).2 = .ok ∧
      QueueInv boot prepared (mcsosSchedEnqueue w t).1 (l ++ [t]) rest ∧
      Enqueued w (mcsosSchedEnqueue w t).1 t := by
  obtain ⟨hok, hqueue, henq⟩ :=
    mcsosSchedEnqueue_spec h.queue h.initialized (h.valid t ht) hnot hstate
  have hboot : boot ≠ t := fun heq => h.boot_fresh (heq ▸ ht)
  refine ⟨hok, ?_, henq⟩
  refine
    { initialized := henq.initialized.trans h.initialized
      idle := henq.idle.trans h.idle
      boot_valid := (validThreadObject_congr (henq.magic boot)).trans h.boot_valid
      boot_running := by rw [henq.state, if_neg hboot, h.boot_running]
      boot_fresh := h.boot_fresh
      queue := hqueue
      listed := ?_
      valid := fun x hx => (validThreadObject_congr (henq.magic x)).trans (h.valid x hx)
      unlisted := ?_
      parked := ?_ }
  · intro x hx
    rcases List.mem_append.mp hx with hold | hnew
    · exact h.listed x hold
    · rw [List.mem_singleton.mp hnew]
      exact ht
  · intro x hx hmem
    obtain ⟨hexempt, hne⟩ := (hrest x).mp hx
    rcases List.mem_append.mp hmem with hold | hnew
    · exact h.unlisted x hexempt hold
    · exact hne (List.mem_singleton.mp hnew)
  · intro x hx hout
    rw [Parked, henq.state]
    rcases eq_or_ne x t with rfl | hne
    · simp
    · have hexempt : x ∉ exempt := fun hmem => hout ((hrest x).mpr ⟨hmem, hne⟩)
      have hparked := h.parked x hx hexempt
      rw [Parked] at hparked
      simpa [hne] using hparked

theorem QueueInv.pickNext {old : UInt64} (h : QueueInv boot prepared w l [old]) :
    ∃ w', mcsosSchedPickNext w = (w', (nextTurn boot [] l).1) ∧
      QueueInv boot prepared w' (nextTurn boot [] l).2 [old, (nextTurn boot [] l).1] ∧
      ((nextTurn boot [] l).1 = boot ∨ (nextTurn boot [] l).1 ∈ prepared) ∧
      Picked w w' ∧ ((nextTurn boot [] l).1 = old ↔ old = boot ∧ l = []) := by
  rcases l with _ | ⟨t, l⟩
  · refine ⟨w, ?_, ?_, .inl rfl, ⟨rfl, rfl, rfl, fun _ => rfl, fun _ => rfl⟩,
      fun heq => ⟨heq.symm, rfl⟩, fun heq => heq.1.symm⟩
    · rw [mcsosSchedPickNext_nil h.queue h.initialized, h.idle]
      rfl
    · exact
        { h with
          unlisted := fun _ _ => List.not_mem_nil
          parked := fun t ht hnot => h.parked t ht fun hmem =>
            hnot (List.mem_cons.mpr (.inl (List.mem_singleton.mp hmem))) }
  · obtain ⟨hnext, hqueue, hpicked⟩ := mcsosSchedPickNext_cons h.queue h.initialized
    have hprepared : t ∈ prepared := h.listed t List.mem_cons_self
    obtain ⟨hnotin, -⟩ := List.nodup_cons.mp h.queue.nodup
    rw [nextTurn, List.append_nil]
    refine ⟨(mcsosSchedPickNext w).1, by rw [← hnext], ?_, .inr hprepared, hpicked, ?_,
      fun heq => absurd heq.2 (List.cons_ne_nil t l)⟩
    · refine
        { initialized := hpicked.initialized.trans h.initialized
          idle := hpicked.idle.trans h.idle
          boot_valid := (validThreadObject_congr (hpicked.magic boot)).trans h.boot_valid
          boot_running := (hpicked.state boot).trans h.boot_running
          boot_fresh := h.boot_fresh
          queue := hqueue
          listed := fun x hx => h.listed x (List.mem_cons_of_mem t hx)
          valid := fun x hx => (validThreadObject_congr (hpicked.magic x)).trans (h.valid x hx)
          unlisted := ?_
          parked := ?_ }
      · intro x hx hmem
        rcases List.mem_cons.mp hx with rfl | hx
        · exact h.unlisted x List.mem_cons_self (List.mem_cons_of_mem t hmem)
        · rw [List.mem_singleton.mp hx] at hmem
          exact hnotin hmem
      · intro x hx hnot
        simp only [List.mem_cons, List.not_mem_nil, or_false, not_or] at hnot
        have hparked := h.parked x hx (by simpa using hnot.1)
        rw [Parked] at hparked ⊢
        rw [hpicked.state]
        simpa [hnot.2] using hparked
    · rintro rfl
      exact absurd List.mem_cons_self (h.unlisted t List.mem_cons_self)

theorem QueueInv.switchTo {next : UInt64} (h : QueueInv boot prepared w l [next])
    (hnext : next = boot ∨ next ∈ prepared) (old : UInt64) :
    SchedInv boot prepared (switchTo w old next) l := by
  have hspec := switchTo_spec w old next
  refine ⟨?_, ?_, ?_⟩
  · rw [hspec.current]
    refine h.congr (h.queue.congr hspec.readyHead hspec.readyTail hspec.runnableCount
      fun x _ => hspec.next x) hspec.initialized hspec.idle hspec.magic ?_ fun x _ hx => ?_
    · rw [hspec.state, h.boot_running, ite_self]
    · rw [hspec.state, if_neg fun heq => hx (List.mem_singleton.mpr heq)]
  · rw [hspec.current]
    exact hnext
  · rw [hspec.current, hspec.state, if_pos rfl]

theorem QueueInv.stay {old : UInt64} (h : QueueInv boot prepared w l [old, old]) :
    QueueInv boot prepared (w.setState old .running) l [old] := by
  refine (h.setState .running List.mem_cons_self fun _ => rfl).park ?_ ?_
  · intro t ht
    exact List.mem_cons_of_mem old ht
  · intro t ht hnot hmem
    exact absurd (by simpa using hmem) hnot

theorem QueueInv.requeue {old next : UInt64} (h : QueueInv boot prepared w l [old, next])
    (hold : old ∈ prepared) (hne : next ≠ old) :
    (mcsosSchedEnqueue (w.setState old .ready) old).2 = .ok ∧
      QueueInv boot prepared (mcsosSchedEnqueue (w.setState old .ready) old).1 (l ++ [old])
        [next] := by
  have hboot : old ≠ boot := fun heq => h.boot_fresh (heq ▸ hold)
  have hready := h.setState .ready List.mem_cons_self fun heq => absurd heq hboot
  have hrest : ∀ x, x ∈ [next] ↔ x ∈ [old, next] ∧ x ≠ old := by
    intro x
    simp only [List.mem_cons, List.not_mem_nil, or_false]
    constructor
    · rintro rfl
      exact ⟨.inr rfl, hne⟩
    · rintro ⟨hx, hxold⟩
      exact hx.resolve_left hxold
  obtain ⟨hok, hqueue, -⟩ := hready.enqueue hold (h.unlisted old List.mem_cons_self)
    (.inr (.inl (by simp))) [next] hrest
  exact ⟨hok, hqueue⟩

theorem QueueInv.leave {old next : UInt64} (h : QueueInv boot prepared w l [old, next])
    (hold : old = boot ∨ (w.threads old).state = .blocked) :
    QueueInv boot prepared w l [next] := by
  refine h.park ?_ ?_
  · intro t ht
    exact List.mem_cons_of_mem old ht
  · intro t ht hnot hmem
    have heq : t = old := by
      simp only [List.mem_cons, List.not_mem_nil, or_false] at hnot hmem
      exact hmem.resolve_right hnot
    subst heq
    rcases hold with rfl | hblocked
    · exact absurd ht h.boot_fresh
    · exact .inr (.inr ⟨hblocked, h.unlisted t List.mem_cons_self⟩)

/-- What `mcsos_sched_yield` does: the next thread runs, and only a change of the thread counts
as a switch. -/
structure Yielded (boot : UInt64) (prepared : List UInt64) (w w' : SchedWorld)
    (l : List UInt64) : Prop where
  inv : SchedInv boot prepared w' (nextTurn boot (requeued w) l).2
  current : w'.sched.current = (nextTurn boot (requeued w) l).1
  contextSwitches : w'.sched.contextSwitches =
    if w.sched.current = boot ∧ l = [] then w.sched.contextSwitches
    else w.sched.contextSwitches + 1

theorem yielded_switch {q : SchedWorld} {next old : UInt64} {rest : List UInt64}
    (hturn : nextTurn boot (requeued w) l = (next, rest))
    (hinv : QueueInv boot prepared q rest [next]) (hnext : next = boot ∨ next ∈ prepared)
    (hcounter : q.sched.contextSwitches = w.sched.contextSwitches)
    (hmoved : ¬(w.sched.current = boot ∧ l = [])) :
    Yielded boot prepared w (SchedulerModel.switchTo q old next) l := by
  refine ⟨?_, ?_, ?_⟩
  · rw [hturn]
    exact hinv.switchTo hnext old
  · rw [hturn]
    rfl
  · rw [if_neg hmoved, ← hcounter]
    rfl

/-- `mcsos_sched_yield`, called while the current thread runs or has just been
blocked. -/
theorem yield_turn (h : QueueInv boot prepared w l [w.sched.current])
    (hcurrent : w.sched.current = boot ∨ w.sched.current ∈ prepared)
    (hstate : (w.threads w.sched.current).state = .running ∨
      (w.threads w.sched.current).state = .blocked ∧ w.sched.current ≠ boot) :
    (mcsosSchedYield w).2 = .ok ∧ Yielded boot prepared w (mcsosSchedYield w).1 l := by
  have hargs := not_refused h.initialized (h.valid_of hcurrent)
  have hcounter := mcsosSchedPickNext_contextSwitches w
  obtain ⟨w', hpick, hinv, hnext, hpicked, hsame⟩ := h.pickNext
  have hturn := nextTurn_eq boot (requeued w) l
  rw [hpick] at hcounter
  rw [mcsosSchedYield, if_neg hargs]
  dsimp only
  rw [hpick]
  dsimp only
  generalize (nextTurn boot [] l).1 = next at *
  generalize (nextTurn boot [] l).2 = rest at *
  have hnextValid : ¬validThreadObject w' next = false := by
    rw [hinv.valid_of hnext]
    decide
  rw [if_neg hnextValid]
  rcases eq_or_ne next w.sched.current with heq | hne
  · -- Only the idle thread is picked while it runs, and then nothing changes.
    obtain ⟨hboot, hempty⟩ := hsame.mp heq
    have hout : requeued w = [] := if_neg fun hrun => hrun.2 (hboot.trans h.idle.symm)
    have hcur : (w'.setState w.sched.current .running).sched.current = w.sched.current :=
      hpicked.current
    rw [if_pos heq]
    refine ⟨rfl, ⟨?_, .inl (hcur.trans hboot), ?_⟩, ?_, ?_⟩
    · rw [heq] at hinv
      rw [hturn, hout, List.append_nil, hcur]
      exact hinv.stay
    · rw [hcur, setState_state, if_pos rfl]
    · rw [hturn, hcur, heq]
    · rw [if_pos ⟨hboot, hempty⟩]
      exact hcounter
  · have hmoved : ¬(w.sched.current = boot ∧ l = []) := fun hstay => hne (hsame.mpr hstay)
    rw [if_neg hne]
    by_cases hrequeue : (w'.threads w.sched.current).state = .running ∧
        w.sched.current ≠ w'.sched.idle
    · have hout : requeued w = [w.sched.current] := by
        rw [hpicked.state, hpicked.idle] at hrequeue
        exact if_pos hrequeue
      have hboot : w.sched.current ≠ boot := hinv.idle ▸ hrequeue.2
      obtain ⟨hok, hqueue⟩ := hinv.requeue (hcurrent.resolve_left hboot) hne
      have hcounter' := mcsosSchedEnqueue_contextSwitches
        (w'.setState w.sched.current .ready) w.sched.current
      rw [← hout] at hqueue
      rw [if_pos hrequeue, if_neg (not_not.mpr hok)]
      exact ⟨rfl, yielded_switch hturn hqueue hnext (hcounter'.trans hcounter) hmoved⟩
    · have hout : requeued w = [] := by
        rw [hpicked.state, hpicked.idle] at hrequeue
        exact if_neg hrequeue
      have hturn' : nextTurn boot (requeued w) l = (next, rest) := by
        rw [hturn, hout, List.append_nil]
      have hold : w.sched.current = boot ∨ (w'.threads w.sched.current).state = .blocked := by
        rw [hpicked.state, hinv.idle] at hrequeue
        rw [hpicked.state]
        rcases hstate with hrun | ⟨hblocked, -⟩
        · exact .inl (not_not.mp fun hboot => hrequeue ⟨hrun, hboot⟩)
        · exact .inr hblocked
      rw [if_neg hrequeue]
      exact ⟨rfl, yielded_switch hturn' (hinv.leave hold) hnext hcounter hmoved⟩

theorem yield_inv (h : QueueInv boot prepared w l [w.sched.current])
    (hcurrent : w.sched.current = boot ∨ w.sched.current ∈ prepared)
    (hstate : (w.threads w.sched.current).state = .running ∨
      (w.threads w.sched.current).state = .blocked ∧ w.sched.current ≠ boot) :
    (mcsosSchedYield w).2 = .ok ∧ ∃ l', SchedInv boot prepared (mcsosSchedYield w).1 l' := by
  obtain ⟨hok, hyielded⟩ := yield_turn h hcurrent hstate
  exact ⟨hok, _, hyielded.inv⟩

theorem SchedInv.valid_current (h : SchedInv boot prepared w l) :
    validThreadObject w w.sched.current = true :=
  h.queue.valid_of h.current

theorem SchedInv.blockCurrent (h : SchedInv boot prepared w l) :
    ∃ l', SchedInv boot prepared (mcsosThreadBlockCurrent w).1 l' := by
  have hargs := not_refused h.queue.initialized h.valid_current
  rw [mcsosThreadBlockCurrent, if_neg hargs]
  by_cases hidle : w.sched.current = w.sched.idle
  · rw [if_pos hidle]
    exact ⟨l, h⟩
  · rw [if_neg hidle]
    have hboot : w.sched.current ≠ boot := h.queue.idle ▸ hidle
    have hblocked := h.queue.setState .blocked List.mem_cons_self fun heq => absurd heq hboot
    exact (yield_inv hblocked h.current (.inr ⟨by simp, hboot⟩)).2

theorem SchedInv.enqueue (h : SchedInv boot prepared w l) {t : UInt64} (ht : t ∈ prepared)
    (hstate : (w.threads t).state = .new ∨ (w.threads t).state = .blocked) :
    ∃ l', SchedInv boot prepared (mcsosSchedEnqueue w t).1 l' := by
  have hother : t ≠ w.sched.current := by
    rintro rfl
    rw [h.running] at hstate
    rcases hstate with hnew | hblocked
    · cases hnew
    · cases hblocked
  have hnot : t ∉ l := by
    rcases h.queue.parked t ht (by simpa using hother) with ⟨-, hnot⟩ | ⟨hready, -⟩ | ⟨-, hnot⟩
    · exact hnot
    · rw [hready] at hstate
      rcases hstate with hnew | hblocked
      · cases hnew
      · cases hblocked
    · exact hnot
  have hrest : ∀ x, x ∈ [w.sched.current] ↔ x ∈ [w.sched.current] ∧ x ≠ t := by
    intro x
    refine ⟨fun hx => ⟨hx, fun heq => hother ?_⟩, fun hx => hx.1⟩
    rw [← heq, List.mem_singleton.mp hx]
  obtain ⟨-, hqueue, henq⟩ := h.queue.enqueue ht hnot
    (hstate.imp_right Or.inr) [w.sched.current] hrest
  refine ⟨l ++ [t], ?_, ?_, ?_⟩
  · rw [henq.current]
    exact hqueue
  · rw [henq.current]
    exact h.current
  · rw [henq.current, henq.state, if_neg hother.symm]
    exact h.running

theorem SchedInv.markReady (h : SchedInv boot prepared w l) {t : UInt64}
    (ht : t ∈ prepared ∨ t = boot ∨ t = 0) :
    ∃ l', SchedInv boot prepared (mcsosThreadMarkReady w t).1 l' := by
  rw [mcsosThreadMarkReady]
  split
  · exact ⟨l, h⟩
  case isFalse hvalid =>
    split
    · exact ⟨l, h⟩
    case isFalse hblocked =>
      rw [not_not] at hblocked
      have hprepared : t ∈ prepared := by
        rcases ht with hmem | rfl | rfl
        · exact hmem
        · rw [h.queue.boot_running] at hblocked
          cases hblocked
        · exact absurd rfl hvalid
      exact h.enqueue hprepared (.inr hblocked)

theorem SchedInv.tick (h : SchedInv boot prepared w l) :
    SchedInv boot prepared (mcsosSchedTick w).1 l := by
  obtain ⟨hsched, hsame⟩ := mcsosSchedTick_spec h.queue.initialized h.valid_current
  refine ⟨?_, ?_, ?_⟩
  · rw [hsched]
    refine h.queue.congr (h.queue.queue.congr ?_ ?_ ?_ fun t _ => hsame.next t) ?_ ?_
      hsame.magic ((hsame.state boot).trans h.queue.boot_running) fun t _ _ => hsame.state t
    all_goals rw [hsched]
  · rw [hsched]
    exact h.current
  · rw [hsched, hsame.state]
    exact h.running

theorem SchedInv.newThread (h : SchedInv boot prepared w l) {t : UInt64} {thread : McsosThread}
    (hfresh : t ∉ prepared) (hboot : t ≠ boot) (hnull : t ≠ 0)
    (hmagic : thread.magic = mcsosThreadMagic) (hnew : thread.state = .new)
    (hsched : w'.sched = w.sched) (hthreads : w'.threads = Function.update w.threads t thread) :
    SchedInv boot (t :: prepared) w' l := by
  have hself : w'.threads t = thread := by rw [hthreads, Function.update_self]
  have hsame : ∀ x, x ≠ t → w'.threads x = w.threads x := by
    intro x hx
    rw [hthreads, Function.update_of_ne hx]
  have hother : ∀ x ∈ prepared, x ≠ t := fun x hx heq => hfresh (heq ▸ hx)
  have hcurrent : w.sched.current ≠ t := by
    rcases h.current with heq | hmem
    · rw [heq]
      exact hboot.symm
    · exact hother _ hmem
  have hvalid : ∀ x, x ≠ t → validThreadObject w' x = validThreadObject w x := fun x hx =>
    validThreadObject_congr (by rw [hsame x hx])
  refine ⟨?_, ?_, ?_⟩
  · rw [hsched]
    refine
      { initialized := by rw [hsched, h.queue.initialized]
        idle := by rw [hsched, h.queue.idle]
        boot_valid := (hvalid boot hboot.symm).trans h.queue.boot_valid
        boot_running := by rw [hsame boot hboot.symm, h.queue.boot_running]
        boot_fresh := List.not_mem_cons_of_ne_of_not_mem hboot.symm h.queue.boot_fresh
        queue := h.queue.queue.congr (by rw [hsched]) (by rw [hsched]) (by rw [hsched])
          fun x hx => by rw [hsame x (hother x (h.queue.listed x hx))]
        listed := fun x hx => List.mem_cons_of_mem t (h.queue.listed x hx)
        valid := ?_
        unlisted := h.queue.unlisted
        parked := ?_ }
    · intro x hx
      rcases List.mem_cons.mp hx with rfl | hold
      · exact (validThreadObject_iff w' x).mpr ⟨hnull, by rw [hself, hmagic]⟩
      · exact (hvalid x (hother x hold)).trans (h.queue.valid x hold)
    · intro x hx hexempt
      rcases List.mem_cons.mp hx with rfl | hold
      · exact .inl ⟨by rw [hself, hnew], fun hmem => hfresh (h.queue.listed x hmem)⟩
      · rw [Parked, hsame x (hother x hold)]
        exact h.queue.parked x hold hexempt
  · rw [hsched]
    exact h.current.imp_right (List.mem_cons_of_mem t)
  · rw [hsched, hsame _ hcurrent]
    exact h.running

theorem SchedInv.prepare (h : SchedInv boot prepared w l) {trampoline : UInt64}
    {thread name entry arg stackBase stackSize id : UInt64} (hfresh : thread ∉ prepared)
    (hboot : thread ≠ boot) :
    (mcsosThreadPrepare trampoline w thread name entry arg stackBase stackSize id).2 = .ok ∧
        SchedInv boot (thread :: prepared)
          (mcsosThreadPrepare trampoline w thread name entry arg stackBase stackSize id).1 l ∨
      (mcsosThreadPrepare trampoline w thread name entry arg stackBase stackSize id).2 ≠ .ok ∧
        (mcsosThreadPrepare trampoline w thread name entry arg stackBase stackSize id).1 = w := by
  rcases mcsosThreadPrepare_cases w trampoline thread name entry arg stackBase stackSize id with
    hfailed | ⟨hok, hnull, object, hmagic, hnew, hsched, hthreads⟩
  · exact .inr hfailed
  · exact .inl ⟨hok, h.newThread hfresh hboot hnull hmagic hnew hsched hthreads⟩

end Steps

inductive SchedCall where
  | prepare (thread name entry arg stackBase stackSize id : UInt64)
  | enqueue (thread : UInt64)
  | yield
  | blockCurrent
  | markReady (thread : UInt64)
  | tick
deriving DecidableEq

/-- The scheduler with the objects that `mcsos_thread_prepare` made threads of. -/
structure SchedRun where
  world : SchedWorld
  prepared : List UInt64

/-- Objects other than the boot thread are prepared once, threads are enqueued in
the state `NEW` or `BLOCKED`, and `mcsos_thread_mark_ready` gets a thread or a null
pointer. -/
def SchedRun.Allowed (boot : UInt64) (r : SchedRun) : SchedCall → Prop
  | .prepare thread _ _ _ _ _ _ => thread ∉ r.prepared ∧ thread ≠ boot
  | .enqueue thread => thread ∈ r.prepared ∧
      ((r.world.threads thread).state = .new ∨ (r.world.threads thread).state = .blocked)
  | .markReady thread => thread ∈ r.prepared ∨ thread = boot ∨ thread = 0
  | _ => True

/-- A call that does not change which objects are threads. -/
def SchedRun.call (r : SchedRun) (result : SchedWorld × McsosSchedResult) :
    SchedRun × McsosSchedResult :=
  (⟨result.1, r.prepared⟩, result.2)

def SchedRun.step (trampoline : UInt64) (r : SchedRun) :
    SchedCall → SchedRun × McsosSchedResult
  | .prepare thread name entry arg stackBase stackSize id =>
      let (w, rc) :=
        mcsosThreadPrepare trampoline r.world thread name entry arg stackBase stackSize id
      (⟨w, if rc = .ok then thread :: r.prepared else r.prepared⟩, rc)
  | .enqueue thread => r.call (mcsosSchedEnqueue r.world thread)
  | .yield => r.call (mcsosSchedYield r.world)
  | .blockCurrent => r.call (mcsosThreadBlockCurrent r.world)
  | .markReady thread => r.call (mcsosThreadMarkReady r.world thread)
  | .tick => r.call (mcsosSchedTick r.world)

def schedSystem (trampoline boot : UInt64) : System SchedRun SchedCall McsosSchedResult where
  allowed := SchedRun.Allowed boot
  step r call := some (r.step trampoline call)

/-- The state after `mcsos_scheduler_init`. -/
def startRun (w : SchedWorld) (boot bootName : UInt64) : SchedRun :=
  ⟨(mcsosSchedulerInit w boot bootName).1, []⟩

section Runs

variable {trampoline boot bootName : UInt64} {w : SchedWorld} {r : SchedRun}
  {trace : List (SchedCall × McsosSchedResult)}

theorem schedInv_startRun (hinit : (mcsosSchedulerInit w boot bootName).2 = .ok) :
    SchedInv boot [] (startRun w boot bootName).world [] := by
  unfold mcsosSchedulerInit at hinit
  split at hinit
  · cases hinit
  case isFalse hnull =>
    have hworld : (startRun w boot bootName).world = (mcsosSchedulerInit w boot bootName).1 := rfl
    rw [hworld, mcsosSchedulerInit, if_neg hnull]
    dsimp only [SchedWorld.setThread]
    refine ⟨⟨rfl, rfl, ?_, ?_, List.not_mem_nil, ⟨rfl, rfl, List.nodup_nil, rfl⟩, ?_, ?_, ?_, ?_⟩,
      .inl rfl, ?_⟩
    · simp [validThreadObject, hnull]
    · simp
    · intro t ht
      cases ht
    · intro t ht
      cases ht
    · intro t _
      exact List.not_mem_nil
    · intro t ht
      cases ht
    · simp

theorem schedInv_step (trampoline : UInt64) {l : List UInt64}
    (h : SchedInv boot r.prepared r.world l) {call : SchedCall}
    (hallowed : r.Allowed boot call) :
    ∃ l', SchedInv boot (r.step trampoline call).1.prepared (r.step trampoline call).1.world
      l' := by
  cases call with
  | prepare thread name entry arg stackBase stackSize id =>
      refine ⟨l, ?_⟩
      rw [SchedRun.step]
      rcases h.prepare hallowed.1 hallowed.2 with ⟨hok, hinv⟩ | ⟨hfail, hsame⟩
      · dsimp only
        rw [if_pos hok]
        exact hinv
      · dsimp only
        rw [if_neg hfail, hsame]
        exact h
  | enqueue thread => exact h.enqueue hallowed.1 hallowed.2
  | yield => exact (yield_inv h.queue h.current (.inl h.running)).2
  | blockCurrent => exact h.blockCurrent
  | markReady thread => exact h.markReady hallowed
  | tick => exact ⟨l, h.tick⟩

theorem schedInv_run (hinit : (mcsosSchedulerInit w boot bootName).2 = .ok)
    (hrun : Run (schedSystem trampoline boot) (startRun w boot bootName) trace r) :
    ∃ l, SchedInv boot r.prepared r.world l := by
  refine hrun.invariant_total (fun _ _ => rfl)
    (fun r => ∃ l, SchedInv boot r.prepared r.world l) ?_ ⟨[], schedInv_startRun hinit⟩
  rintro r call ⟨l, h⟩ hallowed
  exact schedInv_step trampoline h hallowed

/-- What every call leaves behind: a finite ready list without repetitions, from
the head to the tail and as long as the count, and every thread where its state
says. -/
structure WellScheduled (w : SchedWorld) (prepared l : List UInt64) : Prop where
  linked : Linked (fun t => (w.threads t).next) 0 w.sched.readyHead l
  tail : w.sched.readyTail = l.getLast?.getD 0
  nodup : l.Nodup
  count : l.length = w.sched.runnableCount.toNat
  current_unlisted : w.sched.current ∉ l
  idle_unlisted : w.sched.idle ∉ l
  current_running : (w.threads w.sched.current).state = .running
  status : ∀ t ∈ prepared,
    (w.threads t).state = .new ∧ t ∉ l ∨
    (w.threads t).state = .ready ∧ l.count t = 1 ∨
    (w.threads t).state = .running ∧ t = w.sched.current ∨
    (w.threads t).state = .blocked ∧ t ∉ l

theorem SchedInv.wellScheduled {prepared l : List UInt64} (h : SchedInv boot prepared w l) :
    WellScheduled w prepared l where
  linked := h.queue.queue.linked
  tail := h.queue.queue.tail
  nodup := h.queue.queue.nodup
  count := h.queue.queue.count.symm
  current_unlisted := h.queue.unlisted _ List.mem_cons_self
  idle_unlisted := by
    rw [h.queue.idle]
    exact fun hmem => h.queue.boot_fresh (h.queue.listed boot hmem)
  current_running := h.running
  status t ht := by
    rcases eq_or_ne t w.sched.current with rfl | hne
    · exact .inr (.inr (.inl ⟨h.running, rfl⟩))
    · rcases h.queue.parked t ht (by simpa using hne) with hnew | ⟨hready, hmem⟩ | hblocked
      · exact .inl hnew
      · exact .inr (.inl ⟨hready, List.count_eq_one_of_mem h.queue.queue.nodup hmem⟩)
      · exact .inr (.inr (.inr hblocked))

theorem SchedInv.validate {prepared l : List UInt64} (h : SchedInv boot prepared w l) :
    mcsosSchedValidate w = some .ok := by
  have hcurrent := h.wellScheduled.current_unlisted
  have hbound : (boot :: l).length < 2 ^ 64 := by
    refine length_lt_of_nodup (List.nodup_cons.mpr ⟨?_, h.queue.queue.nodup⟩) ?_
    · exact fun hmem => h.queue.boot_fresh (h.queue.listed boot hmem)
    · have hboot := ((validThreadObject_iff w boot).mp h.queue.boot_valid).1
      exact List.not_mem_cons_of_ne_of_not_mem hboot.symm h.queue.queue.null_not_mem
  refine mcsosSchedValidate_ok h.queue.queue h.queue.initialized h.valid_current hbound ?_
  intro t ht
  have hne : t ≠ w.sched.current := fun heq => hcurrent (heq ▸ ht)
  have hprepared := h.queue.listed t ht
  refine ⟨h.queue.valid t hprepared, ?_, hne⟩
  rcases h.queue.parked t hprepared (by simpa using hne) with ⟨-, hnot⟩ | ⟨hready, -⟩ | ⟨-, hnot⟩
  · exact absurd ht hnot
  · exact hready
  · exact absurd ht hnot

/-- After every run of the scheduler the ready queue is well formed, every thread is
where its state says, and the validator agrees. -/
theorem run_wellScheduled (hinit : (mcsosSchedulerInit w boot bootName).2 = .ok)
    (hrun : Run (schedSystem trampoline boot) (startRun w boot bootName) trace r) :
    (∃ l, WellScheduled r.world r.prepared l) ∧ mcsosSchedValidate r.world = some .ok := by
  obtain ⟨l, h⟩ := schedInv_run hinit hrun
  exact ⟨⟨l, h.wellScheduled⟩, h.validate⟩

/-- A world of cleared thread objects, with the boot thread at `4096`. -/
def bootRun : SchedRun :=
  startRun ⟨⟨0, 0, 0, 0, 0, 0, 0, 0, false⟩,
    fun _ => ⟨0, 0, 0, .new, zeroContext, 0, 0, 0, 0, 0, 0, 0, 0⟩, fun _ => 0⟩ 4096 512

/-- One thread is prepared, runs, is blocked, and is made ready again. -/
def wakeCalls : List SchedCall :=
  [.prepare 8192 0 64 0 65536 8192 1, .enqueue 8192, .yield, .blockCurrent, .markReady 8192]

def wakeRun : SchedRun := wakeCalls.foldl (fun r call => (r.step 256 call).1) bootRun

theorem run_wakeRun :
    Run (schedSystem 256 4096) bootRun (wakeCalls.zip [.ok, .ok, .ok, .ok, .ok]) wakeRun := by
  refine .cons ⟨by decide, by decide⟩ rfl ?_
  refine .cons ⟨by decide, .inl (by decide)⟩ rfl ?_
  refine .cons trivial rfl (.cons trivial rfl ?_)
  exact .cons (.inl (by decide)) rfl (.nil _)

theorem run_wellScheduled_wakeRun :
    wakeRun.world.sched.readyHead = 8192 ∧
      ∃ l, WellScheduled wakeRun.world wakeRun.prepared l :=
  ⟨by decide, (run_wellScheduled (by decide) run_wakeRun).1⟩

end Runs

end Mcsos.SchedulerInvariant

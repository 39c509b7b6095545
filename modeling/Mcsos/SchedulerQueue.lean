import Mathlib.Algebra.Group.Nat.Defs
import Mathlib.Data.Finset.Card
import Mcsos.PointerChain
import Mcsos.SchedulerModel

namespace Mcsos.SchedulerQueue

open Mcsos.PointerChain
open Mcsos.SchedulerModel

section Stores

variable (w : SchedWorld) (t x : UInt64)

@[simp] theorem setState_sched (state : McsosThreadState) :
    (w.setState t state).sched = w.sched := rfl

@[simp] theorem setNext_sched (next : UInt64) : (w.setNext t next).sched = w.sched := rfl

@[simp] theorem countSwitch_sched : (w.countSwitch t).sched = w.sched := rfl

@[simp] theorem setState_state (state : McsosThreadState) :
    ((w.setState t state).threads x).state = if x = t then state else (w.threads x).state := by
  rw [SchedWorld.setState, SchedWorld.setThread]
  rcases eq_or_ne x t with rfl | hne
  · simp
  · simp [hne]

@[simp] theorem setState_next (state : McsosThreadState) :
    ((w.setState t state).threads x).next = (w.threads x).next := by
  rw [SchedWorld.setState, SchedWorld.setThread]
  rcases eq_or_ne x t with rfl | hne
  · simp
  · simp [hne]

@[simp] theorem setState_magic (state : McsosThreadState) :
    ((w.setState t state).threads x).magic = (w.threads x).magic := by
  rw [SchedWorld.setState, SchedWorld.setThread]
  rcases eq_or_ne x t with rfl | hne
  · simp
  · simp [hne]

@[simp] theorem setNext_state (next : UInt64) :
    ((w.setNext t next).threads x).state = (w.threads x).state := by
  rw [SchedWorld.setNext, SchedWorld.setThread]
  rcases eq_or_ne x t with rfl | hne
  · simp
  · simp [hne]

@[simp] theorem setNext_next (next : UInt64) :
    ((w.setNext t next).threads x).next = if x = t then next else (w.threads x).next := by
  rw [SchedWorld.setNext, SchedWorld.setThread]
  rcases eq_or_ne x t with rfl | hne
  · simp
  · simp [hne]

@[simp] theorem setNext_magic (next : UInt64) :
    ((w.setNext t next).threads x).magic = (w.threads x).magic := by
  rw [SchedWorld.setNext, SchedWorld.setThread]
  rcases eq_or_ne x t with rfl | hne
  · simp
  · simp [hne]

end Stores

/-- Two worlds whose scheduler record, thread states, links and magic words are the
same; only counters of threads may differ. -/
structure SameThreads (w w' : SchedWorld) : Prop where
  state : ∀ x, (w'.threads x).state = (w.threads x).state
  next : ∀ x, (w'.threads x).next = (w.threads x).next
  magic : ∀ x, (w'.threads x).magic = (w.threads x).magic

theorem SameThreads.trans {w w' w'' : SchedWorld} (h : SameThreads w w')
    (h' : SameThreads w' w'') : SameThreads w w'' :=
  ⟨fun x => (h'.state x).trans (h.state x), fun x => (h'.next x).trans (h.next x),
    fun x => (h'.magic x).trans (h.magic x)⟩

theorem sameThreads_setThread (w : SchedWorld) (t : UInt64) (thread : McsosThread)
    (hstate : thread.state = (w.threads t).state) (hnext : thread.next = (w.threads t).next)
    (hmagic : thread.magic = (w.threads t).magic) : SameThreads w (w.setThread t thread) := by
  rw [SchedWorld.setThread]
  refine ⟨fun x => ?_, fun x => ?_, fun x => ?_⟩ <;> rcases eq_or_ne x t with rfl | hne <;>
    simp_all

theorem sameThreads_countSwitch (w : SchedWorld) (t : UInt64) :
    SameThreads w (w.countSwitch t) :=
  sameThreads_setThread w t _ rfl rfl rfl

theorem validThreadObject_iff (w : SchedWorld) (t : UInt64) :
    validThreadObject w t = true ↔ t ≠ 0 ∧ (w.threads t).magic = mcsosThreadMagic := by
  rw [validThreadObject, Bool.and_eq_true, bne_iff_ne, beq_iff_eq]

theorem not_refused {w : SchedWorld} {t : UInt64} (hinit : w.sched.initialized = true)
    (hvalid : validThreadObject w t = true) :
    ¬(w.sched.initialized = false ∨ validThreadObject w t = false) := by
  simp [hinit, hvalid]

/-- The ready queue holds the threads `l`, in this order. -/
structure ReadyQueue (w : SchedWorld) (l : List UInt64) : Prop where
  linked : Linked (fun t => (w.threads t).next) 0 w.sched.readyHead l
  tail : w.sched.readyTail = l.getLast?.getD 0
  nodup : l.Nodup
  count : w.sched.runnableCount.toNat = l.length

theorem ReadyQueue.congr {w w' : SchedWorld} {l : List UInt64} (h : ReadyQueue w l)
    (hhead : w'.sched.readyHead = w.sched.readyHead)
    (htail : w'.sched.readyTail = w.sched.readyTail)
    (hcount : w'.sched.runnableCount = w.sched.runnableCount)
    (hnext : ∀ t ∈ l, (w'.threads t).next = (w.threads t).next) : ReadyQueue w' l where
  linked := by
    rw [hhead]
    exact h.linked.congr hnext
  tail := htail.trans h.tail
  nodup := h.nodup
  count := by rw [hcount, h.count]

theorem length_lt_of_nodup {l : List UInt64} (h : l.Nodup) (hnull : (0 : UInt64) ∉ l) :
    l.length < 2 ^ 64 := by
  have hsub : ((0 :: l).map UInt64.toNat).toFinset ⊆ Finset.range (2 ^ 64) := by
    intro n hn
    obtain ⟨t, -, rfl⟩ := List.mem_map.mp (List.mem_toFinset.mp hn)
    exact Finset.mem_range.mpr t.toNat_lt
  have hnodup : ((0 :: l).map UInt64.toNat).Nodup :=
    (List.nodup_cons.mpr ⟨hnull, h⟩).map fun _ _ => UInt64.toNat_inj.mp
  have hcard := Finset.card_le_card hsub
  rw [List.toFinset_card_of_nodup hnodup, Finset.card_range, List.length_map,
    List.length_cons] at hcard
  exact hcard

theorem ReadyQueue.null_not_mem {w : SchedWorld} {l : List UInt64} (h : ReadyQueue w l) :
    (0 : UInt64) ∉ l := fun hmem => h.linked.ne_null hmem rfl

theorem ReadyQueue.tail_eq_zero {w : SchedWorld} {l : List UInt64} (h : ReadyQueue w l) :
    w.sched.readyTail = 0 ↔ l = [] := by
  rw [h.tail]
  rcases hlast : l.getLast? with _ | last
  · simpa using hlast
  · have hmem := List.mem_of_getLast? hlast
    constructor
    · rintro rfl
      exact absurd hmem h.null_not_mem
    · rintro rfl
      cases hmem

/-- `mcsos_sched_enqueue` on a valid thread outside the queue. -/
structure Enqueued (w w' : SchedWorld) (t : UInt64) : Prop where
  current : w'.sched.current = w.sched.current
  idle : w'.sched.idle = w.sched.idle
  initialized : w'.sched.initialized = w.sched.initialized
  state : ∀ x, (w'.threads x).state = if x = t then .ready else (w.threads x).state
  magic : ∀ x, (w'.threads x).magic = (w.threads x).magic

section Enqueue

variable {w : SchedWorld} {l : List UInt64} {t : UInt64}

theorem mcsosSchedEnqueue_accepted (hinit : w.sched.initialized = true)
    (hvalid : validThreadObject w t = true)
    (hstate : (w.threads t).state = .new ∨ (w.threads t).state = .ready ∨
      (w.threads t).state = .blocked) :
    mcsosSchedEnqueue w t =
      ({ linkLast ((w.setState t .ready).setNext t 0) t with
          sched := { (linkLast ((w.setState t .ready).setNext t 0) t).sched with
            runnableCount :=
              (linkLast ((w.setState t .ready).setNext t 0) t).sched.runnableCount + 1 } },
        .ok) := by
  have hstates : ¬((w.threads t).state ≠ .new ∧ (w.threads t).state ≠ .ready ∧
      (w.threads t).state ≠ .blocked) := by
    rintro ⟨hnew, hready, hblocked⟩
    rcases hstate with h | h | h
    · exact hnew h
    · exact hready h
    · exact hblocked h
  rw [mcsosSchedEnqueue, if_neg (not_refused hinit hvalid), if_neg hstates]

theorem mcsosSchedEnqueue_nil (hinit : w.sched.initialized = true)
    (hvalid : validThreadObject w t = true)
    (hstate : (w.threads t).state = .new ∨ (w.threads t).state = .ready ∨
      (w.threads t).state = .blocked) (htail : w.sched.readyTail = 0) :
    mcsosSchedEnqueue w t =
      ({ (w.setState t .ready).setNext t 0 with
          sched := { w.sched with
            readyHead := t, readyTail := t, runnableCount := w.sched.runnableCount + 1 } },
        .ok) := by
  have hlink : linkLast ((w.setState t .ready).setNext t 0) t =
      { (w.setState t .ready).setNext t 0 with
        sched := { w.sched with readyHead := t, readyTail := t } } := if_pos htail
  rw [mcsosSchedEnqueue_accepted hinit hvalid hstate, hlink]

theorem mcsosSchedEnqueue_tail (hinit : w.sched.initialized = true)
    (hvalid : validThreadObject w t = true)
    (hstate : (w.threads t).state = .new ∨ (w.threads t).state = .ready ∨
      (w.threads t).state = .blocked) (htail : w.sched.readyTail ≠ 0) :
    mcsosSchedEnqueue w t =
      ({ ((w.setState t .ready).setNext t 0).setNext w.sched.readyTail t with
          sched := { w.sched with
            readyTail := t, runnableCount := w.sched.runnableCount + 1 } }, .ok) := by
  have hlink : linkLast ((w.setState t .ready).setNext t 0) t =
      { ((w.setState t .ready).setNext t 0).setNext w.sched.readyTail t with
        sched := { w.sched with readyTail := t } } := if_neg htail
  rw [mcsosSchedEnqueue_accepted hinit hvalid hstate, hlink]

theorem ReadyQueue.nodup_concat (hqueue : ReadyQueue w l) (hnot : t ∉ l) : (l ++ [t]).Nodup := by
  rw [List.nodup_append_comm]
  exact List.nodup_cons.mpr ⟨hnot, hqueue.nodup⟩

theorem ReadyQueue.count_succ (hqueue : ReadyQueue w l) (hnull : t ≠ 0) (hnot : t ∉ l) :
    (w.sched.runnableCount + 1).toNat = (l ++ [t]).length := by
  have hbound := length_lt_of_nodup (hqueue.nodup_concat hnot)
    (by simp [hqueue.null_not_mem, hnull.symm])
  rw [List.length_append, List.length_singleton] at hbound ⊢
  rw [UInt64.toNat_add, hqueue.count]
  exact Nat.mod_eq_of_lt hbound

theorem mcsosSchedEnqueue_spec (hqueue : ReadyQueue w l) (hinit : w.sched.initialized = true)
    (hvalid : validThreadObject w t = true) (hnot : t ∉ l)
    (hstate : (w.threads t).state = .new ∨ (w.threads t).state = .ready ∨
      (w.threads t).state = .blocked) :
    (mcsosSchedEnqueue w t).2 = .ok ∧ ReadyQueue (mcsosSchedEnqueue w t).1 (l ++ [t]) ∧
      Enqueued w (mcsosSchedEnqueue w t).1 t := by
  obtain ⟨hnull, -⟩ := (validThreadObject_iff w t).mp hvalid
  have hcount := hqueue.count_succ hnull hnot
  by_cases htail : w.sched.readyTail = 0
  · obtain rfl := hqueue.tail_eq_zero.mp htail
    rw [mcsosSchedEnqueue_nil hinit hvalid hstate htail]
    refine ⟨rfl, ⟨⟨rfl, hnull, ?_⟩, rfl, List.nodup_singleton t, hcount⟩,
      ⟨rfl, rfl, rfl, fun x => ?_, fun x => ?_⟩⟩
    · simp
    · simp
    · simp
  · have hnonempty : l ≠ [] := fun hnil => htail (hqueue.tail_eq_zero.mpr hnil)
    obtain ⟨last, hlast⟩ : ∃ last, l.getLast? = some last :=
      ⟨_, List.getLast?_eq_some_getLast hnonempty⟩
    have htailEq : w.sched.readyTail = last := by rw [hqueue.tail, hlast, Option.getD_some]
    have hother : t ≠ last := by
      rintro rfl
      exact hnot (List.mem_of_getLast? hlast)
    rw [mcsosSchedEnqueue_tail hinit hvalid hstate htail, htailEq]
    refine ⟨rfl, ⟨?_, ?_, hqueue.nodup_concat hnot, hcount⟩,
      ⟨rfl, rfl, rfl, fun x => ?_, fun x => ?_⟩⟩
    · refine hqueue.linked.append hlast hqueue.nodup ?_ ?_ hnull ?_
      · intro b hb hne
        have hbt : b ≠ t := fun heq => hnot (heq ▸ hb)
        simp [hne, hbt]
      · simp
      · simp [hother]
    · simp
    · simp
    · simp

end Enqueue

theorem mcsosSchedPickNext_nil {w : SchedWorld} (hqueue : ReadyQueue w [])
    (hinit : w.sched.initialized = true) : mcsosSchedPickNext w = (w, w.sched.idle) := by
  have hhead : w.sched.readyHead = 0 := hqueue.linked
  simp [mcsosSchedPickNext, hinit, hhead]

/-- What `mcsos_sched_pick_next` leaves unchanged. -/
structure Picked (w w' : SchedWorld) : Prop where
  current : w'.sched.current = w.sched.current
  idle : w'.sched.idle = w.sched.idle
  initialized : w'.sched.initialized = w.sched.initialized
  state : ∀ x, (w'.threads x).state = (w.threads x).state
  magic : ∀ x, (w'.threads x).magic = (w.threads x).magic

theorem mcsosSchedPickNext_cons {w : SchedWorld} {t : UInt64} {l : List UInt64}
    (hqueue : ReadyQueue w (t :: l)) (hinit : w.sched.initialized = true) :
    (mcsosSchedPickNext w).2 = t ∧ ReadyQueue (mcsosSchedPickNext w).1 l ∧
      Picked w (mcsosSchedPickNext w).1 := by
  obtain ⟨hhead, hnull, hrest⟩ := hqueue.linked
  obtain ⟨hnotin, hnodup⟩ := List.nodup_cons.mp hqueue.nodup
  have hinitialized : ¬w.sched.initialized = false := by simp [hinit]
  have hlength : w.sched.runnableCount.toNat = l.length + 1 := by
    rw [hqueue.count, List.length_cons]
  have hpos : 0 < w.sched.runnableCount := UInt64.lt_iff_toNat_lt.mpr (by
    rw [hlength]
    exact Nat.succ_pos _)
  rw [mcsosSchedPickNext, if_neg hinitialized]
  dsimp only
  rw [hhead, if_neg hnull]
  dsimp only [setNext_sched]
  refine ⟨rfl, ⟨?_, ?_, hnodup, ?_⟩, ⟨rfl, rfl, rfl, fun x => ?_, fun x => ?_⟩⟩
  · refine hrest.congr fun a ha => ?_
    have hne : a ≠ t := fun heq => hnotin (heq ▸ ha)
    simp [hne]
  · rcases l with _ | ⟨a, l⟩
    · rw [linked_nil] at hrest
      simp [hrest]
    · obtain ⟨hnext, ha, -⟩ := hrest
      simp [hnext, ha, hqueue.tail]
  · have hone : (1 : UInt64) ≤ w.sched.runnableCount := by
      rw [UInt64.le_iff_toNat_le, hlength]
      exact Nat.le_add_left 1 _
    refine (congrArg UInt64.toNat (if_pos hpos)).trans ?_
    rw [UInt64.toNat_sub_of_le _ _ hone]
    exact Nat.sub_eq_of_eq_add hlength
  · simp
  · simp

theorem mcsosSchedPickNext_contextSwitches (w : SchedWorld) :
    (mcsosSchedPickNext w).1.sched.contextSwitches = w.sched.contextSwitches := by
  rw [mcsosSchedPickNext]
  split
  · rfl
  · dsimp only
    split <;> rfl

theorem mcsosSchedEnqueue_contextSwitches (w : SchedWorld) (t : UInt64) :
    (mcsosSchedEnqueue w t).1.sched.contextSwitches = w.sched.contextSwitches := by
  rw [mcsosSchedEnqueue]
  split
  · rfl
  · split
    · rfl
    · dsimp only [linkLast]
      split <;> rfl

/-- What the end of `mcsos_sched_yield` changes. -/
structure Switched (w w' : SchedWorld) (next : UInt64) : Prop where
  current : w'.sched.current = next
  idle : w'.sched.idle = w.sched.idle
  initialized : w'.sched.initialized = w.sched.initialized
  readyHead : w'.sched.readyHead = w.sched.readyHead
  readyTail : w'.sched.readyTail = w.sched.readyTail
  runnableCount : w'.sched.runnableCount = w.sched.runnableCount
  state : ∀ x, (w'.threads x).state = if x = next then .running else (w.threads x).state
  next : ∀ x, (w'.threads x).next = (w.threads x).next
  magic : ∀ x, (w'.threads x).magic = (w.threads x).magic

theorem switchTo_spec (w : SchedWorld) (old next : UInt64) :
    Switched w (switchTo w old next) next := by
  rw [switchTo]
  dsimp only [countSwitch_sched, setState_sched]
  have hcounts := (sameThreads_countSwitch
    { w.setState next .running with sched := { w.sched with current := next } } old).trans
    (sameThreads_countSwitch _ next)
  refine ⟨rfl, rfl, rfl, rfl, rfl, rfl, fun x => ?_, fun x => ?_, fun x => ?_⟩
  · exact (hcounts.state x).trans (setState_state w next x .running)
  · exact (hcounts.next x).trans (setState_next w next x .running)
  · exact (hcounts.magic x).trans (setState_magic w next x .running)

theorem mcsosSchedTick_spec {w : SchedWorld} (hinit : w.sched.initialized = true)
    (hcurrent : validThreadObject w w.sched.current = true) :
    (mcsosSchedTick w).1.sched = { w.sched with ticks := w.sched.ticks + 1 } ∧
      SameThreads w (mcsosSchedTick w).1 := by
  rw [mcsosSchedTick, if_neg (not_refused hinit hcurrent)]
  have hsame := sameThreads_setThread
    { w with sched := { w.sched with ticks := w.sched.ticks + 1 } } w.sched.current
    { w.threads w.sched.current with ticks := (w.threads w.sched.current).ticks + 1 } rfl rfl rfl
  exact ⟨rfl, hsame.state, hsame.next, hsame.magic⟩

theorem mcsosThreadPrepare_cases (w : SchedWorld)
    (trampoline t name entry arg stackBase stackSize id : UInt64) :
    (mcsosThreadPrepare trampoline w t name entry arg stackBase stackSize id).2 ≠ .ok ∧
        (mcsosThreadPrepare trampoline w t name entry arg stackBase stackSize id).1 = w ∨
      (mcsosThreadPrepare trampoline w t name entry arg stackBase stackSize id).2 = .ok ∧
        t ≠ 0 ∧ ∃ thread : McsosThread, thread.magic = mcsosThreadMagic ∧ thread.state = .new ∧
          (mcsosThreadPrepare trampoline w t name entry arg stackBase stackSize id).1.sched =
            w.sched ∧
          (mcsosThreadPrepare trampoline w t name entry arg stackBase stackSize id).1.threads =
            Function.update w.threads t thread := by
  unfold mcsosThreadPrepare
  split
  · exact .inl ⟨by simp, rfl⟩
  case isFalse hargs =>
    split
    · exact .inl ⟨by simp, rfl⟩
    · dsimp only
      split
      · exact .inl ⟨by simp, rfl⟩
      · split
        · exact .inl ⟨by simp, rfl⟩
        · exact .inr ⟨rfl, fun hnull => hargs (.inl hnull), _, rfl, rfl, rfl, rfl⟩

theorem validateLoop_ok {w : SchedWorld} {l : List UInt64} {cursor last count : UInt64}
    {fuel : Nat} (hlinked : Linked (fun t => (w.threads t).next) 0 cursor l)
    (htail : l.getLast?.getD last = w.sched.readyTail)
    (hcount : count.toNat + l.length = w.sched.runnableCount.toNat)
    (hbound : w.sched.runnableCount.toNat + 1 < 2 ^ 64) (hfuel : l.length < fuel)
    (hvalid : ∀ t ∈ l, validThreadObject w t = true ∧ (w.threads t).state = .ready ∧
      t ≠ w.sched.current) :
    validateLoop w cursor last count fuel = some .ok := by
  induction l generalizing cursor last count fuel with
  | nil =>
      obtain ⟨fuel, rfl⟩ := Nat.exists_eq_succ_of_ne_zero (Nat.ne_of_gt hfuel)
      rw [linked_nil] at hlinked
      have hcountEq : count = w.sched.runnableCount := UInt64.toNat_inj.mp hcount
      simp only [List.getLast?_nil, Option.getD_none] at htail
      simp [validateLoop, hlinked, htail, hcountEq]
  | cons a l ih =>
      obtain ⟨fuel, rfl⟩ := Nat.exists_eq_succ_of_ne_zero (Nat.ne_of_gt (Nat.zero_lt_of_lt hfuel))
      obtain ⟨rfl, hnull, hrest⟩ := hlinked
      obtain ⟨hobject, hready, hother⟩ := hvalid cursor List.mem_cons_self
      rw [List.length_cons] at hcount hfuel
      have hone : UInt64.toNat 1 = 1 := rfl
      have hnext : (count + 1).toNat = count.toNat + 1 := by
        rw [UInt64.toNat_add, hone]
        exact Nat.mod_eq_of_lt (by omega)
      have hlimit : ¬count + 1 > w.sched.runnableCount + 1 := by
        rw [gt_iff_lt, UInt64.lt_iff_toNat_lt, hnext, UInt64.toNat_add]
        have hwrap : (w.sched.runnableCount.toNat + UInt64.toNat 1) % 2 ^ 64 =
            w.sched.runnableCount.toNat + 1 := Nat.mod_eq_of_lt hbound
        omega
      have hchecks : ¬(validThreadObject w cursor = false ∨
          (w.threads cursor).state ≠ .ready) := by
        simp [hobject, hready]
      rw [validateLoop, if_neg hnull, if_neg hchecks, if_neg hother, if_neg hlimit]
      refine ih hrest ?_ (by omega) (by omega)
        fun t ht => hvalid t (List.mem_cons_of_mem cursor ht)
      rw [← htail]
      rcases l with _ | ⟨b, l⟩
      · rfl
      · rw [List.getLast?_cons_cons, List.getLast?_eq_some_getLast (List.cons_ne_nil b l)]
        rfl

theorem mcsosSchedValidate_ok {w : SchedWorld} {l : List UInt64} (hqueue : ReadyQueue w l)
    (hinit : w.sched.initialized = true) (hcurrent : validThreadObject w w.sched.current = true)
    (hbound : l.length + 1 < 2 ^ 64)
    (hvalid : ∀ t ∈ l, validThreadObject w t = true ∧ (w.threads t).state = .ready ∧
      t ≠ w.sched.current) :
    mcsosSchedValidate w = some .ok := by
  have hargs := not_refused hinit hcurrent
  rw [mcsosSchedValidate, if_neg hargs]
  refine validateLoop_ok hqueue.linked hqueue.tail.symm ?_ ?_ ?_ hvalid
  · rw [hqueue.count]
    exact Nat.zero_add _
  · rw [hqueue.count]
    exact hbound
  · rw [hqueue.count]
    omega

end Mcsos.SchedulerQueue

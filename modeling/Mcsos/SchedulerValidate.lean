import Mcsos.SchedulerInvariant

namespace Mcsos.SchedulerValidate

open Mcsos.PointerChain
open Mcsos.SchedulerInvariant
open Mcsos.SchedulerModel
open Mcsos.SchedulerQueue

/-- The loop of `mcsos_sched_validate` with the objects that it looks at. -/
def visitLoop (w : SchedWorld) (cursor last count : UInt64) :
    Nat → List UInt64 × Option McsosSchedResult
  | 0 => ([], none)
  | fuel + 1 =>
      if cursor = 0 then
        if last ≠ w.sched.readyTail then ([], some .ecorrupt)
        else if count ≠ w.sched.runnableCount then ([], some .ecorrupt)
        else ([], some .ok)
      else if validThreadObject w cursor = false ∨ (w.threads cursor).state ≠ .ready then
        ([cursor], some .ecorrupt)
      else if cursor = w.sched.current then ([cursor], some .ecorrupt)
      else if count + 1 > w.sched.runnableCount + 1 then ([cursor], some .ecorrupt)
      else
        let (visited, result) := visitLoop w (w.threads cursor).next cursor (count + 1) fuel
        (cursor :: visited, result)

theorem visitLoop_snd (w : SchedWorld) (fuel : Nat) :
    ∀ cursor last count : UInt64,
      (visitLoop w cursor last count fuel).2 = validateLoop w cursor last count fuel := by
  induction fuel with
  | zero => exact fun _ _ _ => rfl
  | succ fuel ih =>
      intro cursor last count
      rw [visitLoop, validateLoop]
      split
      · split
        · rfl
        · split <;> rfl
      · split
        · rfl
        · split
          · rfl
          · split
            · rfl
            · exact ih _ _ _

section Loop

variable {w : SchedWorld}

theorem count_le {count : UInt64} (hcount : w.sched.runnableCount.toNat < 2 ^ 63)
    (hle : count.toNat ≤ w.sched.runnableCount.toNat + 1) :
    (count + 1).toNat = count.toNat + 1 ∧
      (count + 1 > w.sched.runnableCount + 1 ↔
        w.sched.runnableCount.toNat < count.toNat) := by
  have hone : UInt64.toNat 1 = 1 := rfl
  have hnext : (count + 1).toNat = count.toNat + 1 := by
    rw [UInt64.toNat_add, hone]
    exact Nat.mod_eq_of_lt (by omega)
  have hbound : (w.sched.runnableCount + 1).toNat = w.sched.runnableCount.toNat + 1 := by
    rw [UInt64.toNat_add, hone]
    exact Nat.mod_eq_of_lt (by omega)
  refine ⟨hnext, ?_⟩
  rw [gt_iff_lt, UInt64.lt_iff_toNat_lt, hnext, hbound]
  exact Nat.succ_lt_succ_iff

theorem length_visitLoop (hcount : w.sched.runnableCount.toNat < 2 ^ 63) (fuel : Nat) :
    ∀ cursor last count : UInt64, count.toNat ≤ w.sched.runnableCount.toNat + 1 →
      count.toNat + (visitLoop w cursor last count fuel).1.length ≤
        w.sched.runnableCount.toNat + 2 := by
  induction fuel with
  | zero =>
      intro cursor last count hle
      exact Nat.le_succ_of_le hle
  | succ fuel ih =>
      intro cursor last count hle
      obtain ⟨hnext, hlimit⟩ := count_le hcount hle
      rw [visitLoop]
      split
      · split
        · exact Nat.le_succ_of_le hle
        · split <;> exact Nat.le_succ_of_le hle
      · split
        · exact Nat.succ_le_succ hle
        · split
          · exact Nat.succ_le_succ hle
          · split
            · exact Nat.succ_le_succ hle
            case isFalse hgo =>
              rw [hlimit] at hgo
              have hrest := ih (w.threads cursor).next cursor (count + 1) (by omega)
              rw [hnext] at hrest
              rw [List.length_cons]
              omega

/-- The rest of the list is what the validator wants to see, behind `last` as the `count`-th
object. -/
def RestIntact (w : SchedWorld) (cursor last count : UInt64) : Prop :=
  ∃ l, Linked (fun t => (w.threads t).next) 0 cursor l ∧
    (∀ t ∈ l, (w.threads t).magic = mcsosThreadMagic ∧ (w.threads t).state = .ready ∧
      t ≠ w.sched.current) ∧
    w.sched.readyTail = l.getLast?.getD last ∧
    count.toNat + l.length = w.sched.runnableCount.toNat

theorem restIntact_null {last count : UInt64} :
    RestIntact w 0 last count ↔
      last = w.sched.readyTail ∧ count = w.sched.runnableCount := by
  constructor
  · rintro ⟨l, hlinked, -, htail, hlength⟩
    rcases l with _ | ⟨t, l⟩
    · exact ⟨htail.symm, UInt64.toNat_inj.mp hlength⟩
    · exact absurd hlinked.1.symm hlinked.2.1
  · rintro ⟨htail, hlength⟩
    exact ⟨[], rfl, fun t ht => absurd ht List.not_mem_nil, htail.symm, hlength ▸ rfl⟩

theorem getLast?_getD_cons (t last : UInt64) (l : List UInt64) :
    (t :: l).getLast?.getD last = l.getLast?.getD t := by
  rcases l with _ | ⟨a, l⟩
  · rfl
  · rw [List.getLast?_cons_cons, List.getLast?_eq_some_getLast (List.cons_ne_nil a l)]
    rfl

theorem RestIntact.count_le {cursor last count : UInt64} (h : RestIntact w cursor last count) :
    count.toNat ≤ w.sched.runnableCount.toNat := by
  obtain ⟨l, -, -, -, hlength⟩ := h
  omega

theorem restIntact_cons {cursor last count : UInt64} (hnull : cursor ≠ 0)
    (hnext : (count + 1).toNat = count.toNat + 1) :
    RestIntact w cursor last count ↔
      ((w.threads cursor).magic = mcsosThreadMagic ∧ (w.threads cursor).state = .ready ∧
        cursor ≠ w.sched.current) ∧
      RestIntact w (w.threads cursor).next cursor (count + 1) := by
  constructor
  · rintro ⟨l, hlinked, hgood, htail, hlength⟩
    rcases l with _ | ⟨t, l⟩
    · exact absurd hlinked hnull
    · obtain ⟨rfl, -, hrest⟩ := hlinked
      rw [List.length_cons] at hlength
      rw [getLast?_getD_cons] at htail
      refine ⟨hgood cursor List.mem_cons_self, l, hrest, ?_, htail, by omega⟩
      exact fun t ht => hgood t (List.mem_cons_of_mem cursor ht)
  · rintro ⟨hobject, l, hrest, hgood, htail, hlength⟩
    refine ⟨cursor :: l, ⟨rfl, hnull, hrest⟩, ?_, ?_, ?_⟩
    · intro t ht
      rcases List.mem_cons.mp ht with rfl | ht
      · exact hobject
      · exact hgood t ht
    · rw [getLast?_getD_cons]
      exact htail
    · rw [List.length_cons]
      omega

/-- With fuel for all the objects that the count allows, the loop decides. -/
theorem validateLoop_decides (hcount : w.sched.runnableCount.toNat < 2 ^ 63) (fuel : Nat) :
    ∀ cursor last count : UInt64, count.toNat ≤ w.sched.runnableCount.toNat + 1 →
      w.sched.runnableCount.toNat + 2 ≤ count.toNat + fuel →
      RestIntact w cursor last count ∧ validateLoop w cursor last count fuel = some .ok ∨
        ¬RestIntact w cursor last count ∧
          validateLoop w cursor last count fuel = some .ecorrupt := by
  induction fuel with
  | zero =>
      intro cursor last count hle hfuel
      omega
  | succ fuel ih =>
      intro cursor last count hle hfuel
      obtain ⟨hnext, hlimit⟩ := count_le hcount hle
      rw [validateLoop]
      rcases eq_or_ne cursor 0 with rfl | hnull
      · rw [if_pos rfl, restIntact_null]
        split
        case isTrue htail => exact .inr ⟨fun h => htail h.1, rfl⟩
        case isFalse htail =>
          split
          case isTrue hlength => exact .inr ⟨fun h => hlength h.2, rfl⟩
          case isFalse hlength => exact .inl ⟨⟨not_not.mp htail, not_not.mp hlength⟩, rfl⟩
      · rw [if_neg hnull, restIntact_cons hnull hnext]
        split
        case isTrue hobject =>
          refine .inr ⟨fun h => ?_, rfl⟩
          rcases hobject with hinvalid | hstate
          · have hvalid := (validThreadObject_iff w cursor).mpr ⟨hnull, h.1.1⟩
            rw [hinvalid] at hvalid
            cases hvalid
          · exact hstate h.1.2.1
        case isFalse hobject =>
          rw [not_or, Bool.not_eq_false, validThreadObject_iff, not_not] at hobject
          split
          case isTrue hcurrent => exact .inr ⟨fun h => h.1.2.2 hcurrent, rfl⟩
          case isFalse hother =>
            split
            case isTrue hmany =>
              rw [hlimit] at hmany
              refine .inr ⟨fun h => ?_, rfl⟩
              have hle' := h.2.count_le
              omega
            case isFalse hgo =>
              rw [hlimit] at hgo
              have hmay : (w.threads cursor).magic = mcsosThreadMagic ∧
                  (w.threads cursor).state = .ready ∧ cursor ≠ w.sched.current :=
                ⟨hobject.1.2, hobject.2, hother⟩
              have hrest := ih (w.threads cursor).next cursor (count + 1) (by omega) (by omega)
              exact hrest.imp (fun h => ⟨⟨hmay, h.1⟩, h.2⟩) fun h => ⟨fun hno => h.1 hno.2, h.2⟩

/-- The ready list is finite and made of threads that are `READY` and not current, from the
head to the tail and as long as the count. -/
def ListIntact (w : SchedWorld) : Prop :=
  ∃ l, Linked (fun t => (w.threads t).next) 0 w.sched.readyHead l ∧
    (∀ t ∈ l, (w.threads t).magic = mcsosThreadMagic ∧ (w.threads t).state = .ready ∧
      t ≠ w.sched.current) ∧
    w.sched.readyTail = l.getLast?.getD 0 ∧ l.length = w.sched.runnableCount.toNat

theorem listIntact_iff : ListIntact w ↔ RestIntact w w.sched.readyHead 0 0 := by
  have hzero : UInt64.toNat 0 = 0 := rfl
  simp only [ListIntact, RestIntact, hzero, Nat.zero_add]

/-- The validator looks at no more objects than the count and two, also when it has more fuel,
and accepts exactly the intact lists. -/
theorem mcsosSchedValidate_decides (hinit : w.sched.initialized = true)
    (hcurrent : validThreadObject w w.sched.current = true)
    (hcount : w.sched.runnableCount.toNat < 2 ^ 63) :
    (∀ fuel, (visitLoop w w.sched.readyHead 0 0 fuel).1.length ≤
        w.sched.runnableCount.toNat + 2) ∧
      (∀ fuel, w.sched.runnableCount.toNat + 2 ≤ fuel →
        (visitLoop w w.sched.readyHead 0 0 fuel).2 = mcsosSchedValidate w) ∧
      (mcsosSchedValidate w = some .ok ↔ ListIntact w) ∧
      (¬ListIntact w → mcsosSchedValidate w = some .ecorrupt) := by
  have hzero : UInt64.toNat 0 = 0 := rfl
  have hvalidate : mcsosSchedValidate w =
      validateLoop w w.sched.readyHead 0 0 (w.sched.runnableCount.toNat + 2) := by
    rw [mcsosSchedValidate, if_neg (not_refused hinit hcurrent)]
  have hdecides : ∀ fuel, w.sched.runnableCount.toNat + 2 ≤ fuel →
      ListIntact w ∧ validateLoop w w.sched.readyHead 0 0 fuel = some .ok ∨
        ¬ListIntact w ∧ validateLoop w w.sched.readyHead 0 0 fuel = some .ecorrupt := by
    intro fuel hfuel
    rw [listIntact_iff]
    exact validateLoop_decides hcount fuel _ 0 0 (Nat.zero_le _) (by rw [hzero]; omega)
  refine ⟨fun fuel => ?_, fun fuel hfuel => ?_, ?_, ?_⟩
  · have hlength := length_visitLoop hcount fuel w.sched.readyHead 0 0 (Nat.zero_le _)
    rw [hzero] at hlength
    omega
  · rw [visitLoop_snd, hvalidate]
    rcases hdecides fuel hfuel with ⟨hyes, hloop⟩ | ⟨hno, hloop⟩
    · rcases hdecides _ (Nat.le_refl _) with ⟨-, hloop'⟩ | ⟨hno', -⟩
      · rw [hloop, hloop']
      · exact absurd hyes hno'
    · rcases hdecides _ (Nat.le_refl _) with ⟨hyes', -⟩ | ⟨-, hloop'⟩
      · exact absurd hyes' hno
      · rw [hloop, hloop']
  · rw [hvalidate]
    rcases hdecides _ (Nat.le_refl _) with ⟨hyes, hloop⟩ | ⟨hno, hloop⟩
    · exact iff_of_true hloop hyes
    · refine iff_of_false (fun hok => ?_) hno
      rw [hloop] at hok
      cases hok
  · intro hno
    rw [hvalidate]
    rcases hdecides _ (Nat.le_refl _) with ⟨hyes, -⟩ | ⟨-, hloop⟩
    · exact absurd hyes hno
    · exact hloop

end Loop

/-- A ready list that goes round and round. -/
def cyclicWorld : SchedWorld := wakeRun.world.setNext 8192 8192

theorem mcsosSchedValidate_decides_cyclicWorld :
    (visitLoop cyclicWorld cyclicWorld.sched.readyHead 0 0 100).1 = [8192, 8192, 8192] ∧
      ¬ListIntact cyclicWorld := by
  have hdecides := (mcsosSchedValidate_decides (w := cyclicWorld) (by decide) (by decide)
    (by decide)).2.2.1
  refine ⟨by decide, fun hintact => ?_⟩
  exact absurd (hdecides.mpr hintact) (by decide)

end Mcsos.SchedulerValidate

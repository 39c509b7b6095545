import Mathlib.Data.List.GetD
import Mathlib.Data.List.Induction
import Mathlib.Data.UInt
import Mcsos.CallSystem
import Mcsos.LockdepModel

namespace Mcsos.LockdepStack

open Mcsos.CallSystem
open Mcsos.LockdepModel

/-- The classes that are held, from the oldest on, and how often the order was violated. -/
structure HeldStack where
  classes : List UInt32
  violations : Nat
deriving DecidableEq, Repr

def HeldStack.violation (a : HeldStack) : HeldStack := { a with violations := a.violations + 1 }

/-- A class can be taken if it is above all that are held, and there is room. -/
def HeldStack.acquire (a : HeldStack) (classId : UInt32) : HeldStack × McsSync :=
  if classId = 0 then (a, .einval)
  else if mcsLockdepMaxHeld ≤ a.classes.length then (a.violation, .eoverflow)
  else if a.classes.all (fun held => decide (held < classId)) then
    ({ a with classes := a.classes ++ [classId] }, .ok)
  else (a.violation, .edeadlk)

/-- Only the class that was taken last can be given back. -/
def HeldStack.release (a : HeldStack) (classId : UInt32) : HeldStack × McsSync :=
  if classId = 0 then (a, .einval)
  else if a.classes = [] then (a.violation, .eperm)
  else if a.classes.getLast? = some classId then
    ({ a with classes := a.classes.dropLast }, .ok)
  else (a.violation, .edeadlk)

/-- A call has failed: it was counted as a violation, unless it was invalid. -/
def Refused {α : Type} (violation : α → α) (a : α) (answer : α × McsSync) : Prop :=
  answer = (a, .einval) ∨
    ∃ rc, rc ≠ .ok ∧ rc ≠ .einval ∧ answer = (violation a, rc)

theorem HeldStack.acquire_cases (a : HeldStack) (classId : UInt32) :
    Refused HeldStack.violation a (a.acquire classId) ∨
      a.acquire classId = ({ a with classes := a.classes ++ [classId] }, .ok) := by
  rw [acquire]
  split
  · exact .inl (.inl rfl)
  · split
    · exact .inl (.inr ⟨.eoverflow, by decide, by decide, rfl⟩)
    · split
      · exact .inr rfl
      · exact .inl (.inr ⟨.edeadlk, by decide, by decide, rfl⟩)

theorem HeldStack.release_cases (a : HeldStack) (classId : UInt32) :
    Refused HeldStack.violation a (a.release classId) ∨
      ∃ below, a.classes = below ++ [classId] ∧
        a.release classId = ({ a with classes := below }, .ok) := by
  rw [release]
  split
  · exact .inl (.inl rfl)
  · split
    · exact .inl (.inr ⟨.eperm, by decide, by decide, rfl⟩)
    · split
      case isTrue hlast =>
        obtain ⟨below, hclasses⟩ := List.getLast?_eq_some_iff.mp hlast
        rw [hclasses, List.dropLast_concat]
        exact .inr ⟨below, rfl, rfl⟩
      · exact .inl (.inr ⟨.edeadlk, by decide, by decide, rfl⟩)

/-- The slots of a checker hold the classes of a stack, and nothing above them. -/
structure Stacked (state : McsLockdepState) (a : HeldStack) : Prop where
  depth : state.depth = a.classes.length
  room : a.classes.length ≤ mcsLockdepMaxHeld
  slot : ∀ i, i < mcsLockdepMaxHeld → state.heldClass i = a.classes.getD i 0
  unnamed : ∀ i, a.classes.length ≤ i → i < mcsLockdepMaxHeld → state.heldName i = none
  increasing : a.classes.Pairwise (· < ·)
  nonzero : ∀ held ∈ a.classes, held ≠ 0
  violations : state.violationCount = UInt32.ofNat a.violations

theorem scanHeld_iff {heldClass : Nat → UInt32} {classId : UInt32} {count : Nat} :
    scanHeld heldClass classId count = true ↔ ∃ i, i < count ∧ heldClass i = classId := by
  induction count with
  | zero =>
      constructor
      · intro h
        cases h
      · rintro ⟨i, hi, -⟩
        exact absurd hi (Nat.not_lt_zero i)
  | succ count ih =>
      rw [scanHeld, Bool.or_eq_true, ih, beq_iff_eq]
      constructor
      · rintro (⟨i, hi, heq⟩ | heq)
        · exact ⟨i, Nat.lt_succ_of_lt hi, heq⟩
        · exact ⟨count, Nat.lt_succ_self count, heq⟩
      · rintro ⟨i, hi, heq⟩
        rcases Nat.lt_succ_iff_lt_or_eq.mp hi with hlt | rfl
        · exact .inl ⟨i, hlt, heq⟩
        · exact .inr heq

theorem mcsLockdepBeforeAcquire_cases (state : McsLockdepState) (classId : UInt32)
    (name : Option String) :
    Refused McsLockdepState.violation state (mcsLockdepBeforeAcquire state classId name) ∨
      (classId ≠ 0 ∧ state.depth < mcsLockdepMaxHeld ∧
        ¬scanHeld state.heldClass classId state.depth = true ∧
        ¬(0 < state.depth ∧ classId < state.heldClass (state.depth - 1))) ∧
        mcsLockdepBeforeAcquire state classId name =
          ({ state with
              heldClass := Function.update state.heldClass state.depth classId
              heldName := Function.update state.heldName state.depth name
              depth := state.depth + 1 }, .ok) := by
  rw [mcsLockdepBeforeAcquire]
  split
  · exact .inl (.inl rfl)
  case isFalse hne =>
    split
    · exact .inl (.inr ⟨.eoverflow, by decide, by decide, rfl⟩)
    case isFalse hfull =>
      split
      · exact .inl (.inr ⟨.edeadlk, by decide, by decide, rfl⟩)
      case isFalse hscan =>
        split
        · exact .inl (.inr ⟨.edeadlk, by decide, by decide, rfl⟩)
        case isFalse htop => exact .inr ⟨⟨hne, Nat.lt_of_not_le hfull, hscan, htop⟩, rfl⟩

theorem mcsLockdepAfterRelease_cases (state : McsLockdepState) (classId : UInt32) :
    Refused McsLockdepState.violation state (mcsLockdepAfterRelease state classId) ∨
      (0 < state.depth ∧ state.heldClass (state.depth - 1) = classId) ∧
        mcsLockdepAfterRelease state classId =
          ({ state with
              heldClass := Function.update state.heldClass (state.depth - 1) 0
              heldName := Function.update state.heldName (state.depth - 1) none
              depth := state.depth - 1 }, .ok) := by
  rw [mcsLockdepAfterRelease]
  split
  · exact .inl (.inl rfl)
  · split
    · exact .inl (.inr ⟨.eperm, by decide, by decide, rfl⟩)
    case isFalse hdepth =>
      split
      · exact .inl (.inr ⟨.edeadlk, by decide, by decide, rfl⟩)
      case isFalse htop => exact .inr ⟨⟨Nat.pos_of_ne_zero hdepth, not_not.mp htop⟩, rfl⟩

section Calls

variable {state : McsLockdepState} {a : HeldStack}

theorem Stacked.slot_eq (h : Stacked state a) {i : Nat} (hi : i < a.classes.length) :
    state.heldClass i = a.classes[i] := by
  rw [h.slot i (Nat.lt_of_lt_of_le hi h.room), List.getD_eq_getElem _ _ hi]

theorem Stacked.slot_zero (h : Stacked state a) {i : Nat} (hi : a.classes.length ≤ i)
    (hmax : i < mcsLockdepMaxHeld) : state.heldClass i = 0 := by
  rw [h.slot i hmax, List.getD_eq_default _ _ hi]

theorem Stacked.scanHeld (h : Stacked state a) (classId : UInt32) :
    LockdepModel.scanHeld state.heldClass classId state.depth = true ↔ classId ∈ a.classes := by
  rw [scanHeld_iff, h.depth, List.mem_iff_getElem]
  constructor
  · rintro ⟨i, hi, heq⟩
    exact ⟨i, hi, (h.slot_eq hi).symm.trans heq⟩
  · rintro ⟨i, hi, heq⟩
    exact ⟨i, hi, (h.slot_eq hi).trans heq⟩

theorem Stacked.isHeld (h : Stacked state a) (classId : UInt32) :
    mcsLockdepIsHeld state classId = true ↔ classId ∈ a.classes := by
  have hroom : state.depth ≤ mcsLockdepMaxHeld := h.depth ▸ h.room
  rw [mcsLockdepIsHeld, Nat.min_eq_left hroom]
  rcases eq_or_ne classId 0 with rfl | hne
  · rw [if_pos rfl]
    refine iff_of_false Bool.false_ne_true fun hmem => ?_
    exact h.nonzero 0 hmem rfl
  · rw [if_neg hne]
    exact h.scanHeld classId

theorem Stacked.violation (h : Stacked state a) : Stacked state.violation a.violation where
  depth := h.depth
  room := h.room
  slot := h.slot
  unnamed := h.unnamed
  increasing := h.increasing
  nonzero := h.nonzero
  violations := by
    rw [HeldStack.violation, UInt32.ofNat_add, ← h.violations]
    rfl

theorem above_iff {l : List UInt32} (hinc : l.Pairwise (· < ·)) (classId : UInt32) :
    (∀ held ∈ l, held < classId) ↔
      classId ∉ l ∧ ∀ top, l.getLast? = some top → ¬classId < top := by
  constructor
  · intro habove
    refine ⟨fun hmem => UInt32.lt_irrefl _ (habove classId hmem), fun top htop hlt => ?_⟩
    exact UInt32.lt_asymm hlt (habove top (List.mem_of_getLast? htop))
  · rintro ⟨hnew, htop⟩ held hheld
    rcases List.eq_nil_or_concat l with rfl | ⟨below, top, rfl⟩
    · exact absurd hheld List.not_mem_nil
    · rw [List.concat_eq_append] at *
      have hle := UInt32.not_lt.mp (htop top List.getLast?_concat)
      have hne : top ≠ classId := by
        rintro rfl
        exact hnew (List.mem_append_right _ List.mem_cons_self)
      have hlt := UInt32.lt_of_le_of_ne hle hne
      rcases List.mem_append.mp hheld with hbelow | hlast
      · have hunder := (List.pairwise_append.mp hinc).2.2 held hbelow top List.mem_cons_self
        exact UInt32.lt_trans hunder hlt
      · rw [List.mem_singleton.mp hlast]
        exact hlt

theorem Stacked.getLast? (h : Stacked state a) (hpos : 0 < state.depth) :
    a.classes.getLast? = some (state.heldClass (state.depth - 1)) := by
  have hlen := h.depth
  have hlast : state.depth - 1 < a.classes.length := by omega
  rw [List.getLast?_eq_getElem?, ← hlen, List.getElem?_eq_getElem hlast, h.slot_eq hlast]

theorem Stacked.above_iff (h : Stacked state a) (classId : UInt32) :
    (∀ held ∈ a.classes, held < classId) ↔
      ¬LockdepModel.scanHeld state.heldClass classId state.depth = true ∧
        ¬(0 < state.depth ∧ classId < state.heldClass (state.depth - 1)) := by
  rw [LockdepStack.above_iff h.increasing, h.scanHeld, not_and]
  refine and_congr_right fun _ => ?_
  constructor
  · intro htop hpos
    exact htop _ (h.getLast? hpos)
  · intro htop top hlast
    have hpos : 0 < state.depth := by
      rw [h.depth]
      exact List.length_pos_of_mem (List.mem_of_getLast? hlast)
    rw [h.getLast? hpos] at hlast
    cases hlast
    exact htop hpos

theorem Stacked.push (h : Stacked state a) (hroom : a.classes.length < mcsLockdepMaxHeld)
    {classId : UInt32} (hne : classId ≠ 0) (habove : ∀ held ∈ a.classes, held < classId)
    (name : Option String) :
    Stacked
      { state with
        heldClass := Function.update state.heldClass state.depth classId
        heldName := Function.update state.heldName state.depth name
        depth := state.depth + 1 }
      { a with classes := a.classes ++ [classId] } := by
  have hdepth := h.depth
  refine ⟨?_, ?_, fun i hi => ?_, fun i hlen hi => ?_, ?_, ?_, h.violations⟩
  · rw [List.length_append, hdepth]
    rfl
  · rw [List.length_append]
    exact hroom
  · dsimp only
    rcases Nat.lt_trichotomy i a.classes.length with hbelow | rfl | habove
    · rw [Function.update_of_ne (by omega), List.getD_append _ _ _ _ hbelow]
      exact h.slot i hi
    · rw [← hdepth, Function.update_self, hdepth,
        List.getD_append_right _ _ _ _ (Nat.le_refl _), Nat.sub_self]
      rfl
    · rw [Function.update_of_ne (by omega), List.getD_eq_default]
      · exact h.slot_zero (Nat.le_of_lt habove) hi
      · rw [List.length_append]
        exact habove
  · rw [List.length_append, List.length_singleton] at hlen
    dsimp only
    rw [Function.update_of_ne (by omega)]
    exact h.unnamed i (by omega) hi
  · rw [List.pairwise_append]
    refine ⟨h.increasing, List.pairwise_singleton _ _, fun held hheld new hnew => ?_⟩
    rw [List.mem_singleton.mp hnew]
    exact habove held hheld
  · intro held hheld
    rcases List.mem_append.mp hheld with hold | hnew
    · exact h.nonzero held hold
    · rw [List.mem_singleton.mp hnew]
      exact hne

theorem Stacked.pop (h : Stacked state a) {below : List UInt32} {top : UInt32}
    (hclasses : a.classes = below ++ [top]) :
    Stacked
      { state with
        heldClass := Function.update state.heldClass (state.depth - 1) 0
        heldName := Function.update state.heldName (state.depth - 1) none
        depth := state.depth - 1 }
      { a with classes := below } := by
  have hlen : a.classes.length = below.length + 1 := by
    rw [hclasses, List.length_append]
    rfl
  have hdepth := h.depth
  have hroom := h.room
  have hinc := h.increasing
  rw [hclasses] at hinc
  refine ⟨?_, ?_, fun i hi => ?_, fun i hbelow hi => ?_, ?_, ?_, h.violations⟩
  · dsimp only
    omega
  · dsimp only
    omega
  · dsimp only
    rcases Nat.lt_trichotomy i below.length with hbelow | heq | habove
    · rw [Function.update_of_ne (by omega), h.slot i hi, hclasses,
        List.getD_append _ _ _ _ hbelow]
    · have htop : state.depth - 1 = i := by omega
      rw [htop, Function.update_self, List.getD_eq_default _ _ (by omega)]
    · rw [Function.update_of_ne (by omega), List.getD_eq_default _ _ (by omega)]
      exact h.slot_zero (by omega) hi
  · dsimp only at hbelow ⊢
    rcases eq_or_ne i (state.depth - 1) with rfl | hne
    · rw [Function.update_self]
    · rw [Function.update_of_ne hne]
      exact h.unnamed i (by omega) hi
  · exact (List.pairwise_append.mp hinc).1
  · intro held hheld
    refine h.nonzero held ?_
    rw [hclasses]
    exact List.mem_append_left _ hheld

/-- An acquisition does to the checker what it does to the stack. -/
theorem Stacked.beforeAcquire (h : Stacked state a) (classId : UInt32) (name : Option String) :
    (mcsLockdepBeforeAcquire state classId name).2 = (a.acquire classId).2 ∧
      Stacked (mcsLockdepBeforeAcquire state classId name).1 (a.acquire classId).1 := by
  have hdecide : (a.classes.all fun held => decide (held < classId)) = true ↔
      ∀ held ∈ a.classes, held < classId := by
    simp only [List.all_eq_true, decide_eq_true_eq]
  have habove := hdecide.trans (h.above_iff classId)
  rw [mcsLockdepBeforeAcquire, HeldStack.acquire, ← h.depth]
  split
  · exact ⟨rfl, h⟩
  case isFalse hne =>
    split
    · exact ⟨rfl, h.violation⟩
    case isFalse hfull =>
      split
      case isTrue hscan =>
        rw [if_neg fun hall => (habove.mp hall).1 hscan]
        exact ⟨rfl, h.violation⟩
      case isFalse hscan =>
        split
        case isTrue htop =>
          rw [if_neg fun hall => (habove.mp hall).2 htop]
          exact ⟨rfl, h.violation⟩
        case isFalse htop =>
          have hall := habove.mpr ⟨hscan, htop⟩
          have hroom : a.classes.length < mcsLockdepMaxHeld := by
            rw [← h.depth]
            exact Nat.lt_of_not_le hfull
          rw [if_pos hall]
          exact ⟨rfl, h.push hroom hne (hdecide.mp hall) name⟩

theorem Stacked.afterRelease (h : Stacked state a) (classId : UInt32) :
    (mcsLockdepAfterRelease state classId).2 = (a.release classId).2 ∧
      Stacked (mcsLockdepAfterRelease state classId).1 (a.release classId).1 := by
  have hempty : state.depth = 0 ↔ a.classes = [] := by
    rw [h.depth, List.length_eq_zero_iff]
  rw [mcsLockdepAfterRelease, HeldStack.release]
  split
  · exact ⟨rfl, h⟩
  · by_cases hdepth : state.depth = 0
    · rw [if_pos hdepth, if_pos (hempty.mp hdepth)]
      exact ⟨rfl, h.violation⟩
    · have hlast := h.getLast? (Nat.pos_of_ne_zero hdepth)
      rw [if_neg hdepth, if_neg (mt hempty.mpr hdepth), hlast]
      by_cases htop : state.heldClass (state.depth - 1) = classId
      · obtain ⟨below, hclasses⟩ := List.getLast?_eq_some_iff.mp hlast
        rw [if_neg (not_not.mpr htop), if_pos (congrArg some htop), hclasses,
          List.dropLast_concat]
        exact ⟨rfl, h.pop hclasses⟩
      · rw [if_pos htop, if_neg fun heq => htop (Option.some.inj heq)]
        exact ⟨rfl, h.violation⟩

theorem stacked_init (state : McsLockdepState) : Stacked (mcsLockdepInit state) ⟨[], 0⟩ where
  depth := rfl
  room := Nat.zero_le _
  slot _ hi := if_pos hi
  unnamed _ _ hi := if_pos hi
  increasing := .nil
  nonzero _ hheld := absurd hheld List.not_mem_nil
  violations := rfl

theorem Stacked.release_acquired (h : Stacked state a) {classId : UInt32} {name : Option String}
    (hok : (mcsLockdepBeforeAcquire state classId name).2 = .ok) :
    mcsLockdepAfterRelease (mcsLockdepBeforeAcquire state classId name).1 classId =
      (state, .ok) := by
  rcases mcsLockdepBeforeAcquire_cases state classId name with
    (hinval | ⟨rc, hne, -, hfailed⟩) | ⟨⟨hne, hroom, -⟩, hpushed⟩
  · rw [hinval] at hok
    cases hok
  · rw [hfailed] at hok
    exact absurd hok hne
  · have hzero := h.slot_zero (Nat.le_of_eq h.depth.symm) hroom
    have hnone := h.unnamed state.depth (Nat.le_of_eq h.depth.symm) hroom
    have htop : Function.update state.heldClass state.depth classId state.depth = classId :=
      Function.update_self _ _ _
    rw [hpushed, mcsLockdepAfterRelease, if_neg hne, if_neg (Nat.succ_ne_zero _)]
    dsimp only
    rw [Nat.add_sub_cancel, if_neg (not_not.mpr htop), Function.update_idem,
      Function.update_idem, ← hzero, Function.update_eq_self, ← hnone, Function.update_eq_self]

end Calls

inductive LockdepCall where
  | beforeAcquire (classId : UInt32) (name : Option String)
  | afterRelease (classId : UInt32)
deriving DecidableEq, Repr

def lockdepStep (state : McsLockdepState) : LockdepCall → McsLockdepState × McsSync
  | .beforeAcquire classId name => mcsLockdepBeforeAcquire state classId name
  | .afterRelease classId => mcsLockdepAfterRelease state classId

def lockdepSystem : System McsLockdepState LockdepCall McsSync where
  allowed _ _ := True
  step state call := some (lockdepStep state call)

def HeldStack.step (a : HeldStack) : LockdepCall → HeldStack × McsSync
  | .beforeAcquire classId _ => a.acquire classId
  | .afterRelease classId => a.release classId

/-- A successful acquisition of a class. -/
def isAcquire (classId : UInt32) : LockdepCall × McsSync → Bool
  | (.beforeAcquire classId' _, .ok) => classId' == classId
  | _ => false

/-- A successful release of a class. -/
def isRelease (classId : UInt32) : LockdepCall × McsSync → Bool
  | (.afterRelease classId', .ok) => classId' == classId
  | _ => false

/-- A call that failed although it was valid. -/
def isViolation : LockdepCall × McsSync → Bool
  | (_, .ok) => false
  | (_, .einval) => false
  | _ => true

section Runs

variable {state state' : McsLockdepState} {a : HeldStack}
  {trace : List (LockdepCall × McsSync)}

theorem Stacked.step (h : Stacked state a) (call : LockdepCall) :
    (lockdepStep state call).2 = (a.step call).2 ∧
      Stacked (lockdepStep state call).1 (a.step call).1 := by
  cases call with
  | beforeAcquire classId name => exact h.beforeAcquire classId name
  | afterRelease classId => exact h.afterRelease classId

theorem HeldStack.step_cases (a : HeldStack) (call : LockdepCall) :
    Refused HeldStack.violation a (a.step call) ∨
      (∃ classId name, call = .beforeAcquire classId name ∧
        a.step call = ({ a with classes := a.classes ++ [classId] }, .ok)) ∨
      ∃ classId below, call = .afterRelease classId ∧ a.classes = below ++ [classId] ∧
        a.step call = ({ a with classes := below }, .ok) := by
  cases call with
  | beforeAcquire classId name =>
      exact (a.acquire_cases classId).imp_right fun hpush => .inl ⟨classId, name, rfl, hpush⟩
  | afterRelease classId =>
      refine (a.release_cases classId).imp_right fun hpop => .inr ?_
      obtain ⟨below, hclasses, hpop⟩ := hpop
      exact ⟨classId, below, rfl, hclasses, hpop⟩

theorem not_counted_of_failed {rc : McsSync} (hrc : rc ≠ .ok) (classId : UInt32)
    (call : LockdepCall) :
    isAcquire classId (call, rc) = false ∧ isRelease classId (call, rc) = false := by
  cases rc with
  | ok => exact absurd rfl hrc
  | _ => cases call <;> exact ⟨rfl, rfl⟩

theorem HeldStack.step_count (a : HeldStack) (call : LockdepCall) (classId : UInt32) :
    (a.step call).1.classes.count classId +
        (if isRelease classId (call, (a.step call).2) then 1 else 0) =
      a.classes.count classId + (if isAcquire classId (call, (a.step call).2) then 1 else 0) := by
  rcases a.step_cases call with
    (hinval | ⟨rc, hne, -, hfailed⟩) | ⟨classId', name, rfl, hpush⟩ |
      ⟨classId', below, rfl, hclasses, hpop⟩
  · have hne : McsSync.einval ≠ .ok := by decide
    obtain ⟨hacquire, hrelease⟩ := not_counted_of_failed hne classId call
    rw [hinval, hacquire, hrelease]
  · obtain ⟨hacquire, hrelease⟩ := not_counted_of_failed hne classId call
    rw [hfailed, hacquire, hrelease]
    rfl
  · rw [hpush]
    simp [isAcquire, isRelease, List.count_singleton]
  · rw [hpop, hclasses]
    simp [isAcquire, isRelease, List.count_singleton]

theorem HeldStack.step_violations (a : HeldStack) (call : LockdepCall) :
    (a.step call).1.violations =
      a.violations + (if isViolation (call, (a.step call).2) then 1 else 0) := by
  rcases a.step_cases call with
    (hinval | ⟨rc, hne, hvalid, hfailed⟩) | ⟨classId, name, rfl, hpush⟩ |
      ⟨classId, below, rfl, hclasses, hpop⟩
  · rw [hinval]
    rfl
  · rw [hfailed]
    cases rc with
    | ok => exact absurd rfl hne
    | einval => exact absurd rfl hvalid
    | _ => rfl
  · rw [hpush]
    rfl
  · rw [hpop]
    rfl

theorem Stacked.run (h : Stacked state a) (hrun : Run lockdepSystem state trace state') :
    ∃ a', Stacked state' a' ∧
      (∀ classId, a'.classes.count classId + trace.countP (isRelease classId) =
        a.classes.count classId + trace.countP (isAcquire classId)) ∧
      a'.violations = a.violations + trace.countP isViolation := by
  induction hrun generalizing a with
  | nil state => exact ⟨a, h, fun _ => rfl, rfl⟩
  | @cons state mid _ call result trace _ hstep _ ih =>
      obtain ⟨hresult, hstacked⟩ := h.step call
      rw [Option.some.inj hstep] at hresult hstacked
      obtain ⟨a', hstacked', hcount, hviolations⟩ := ih hstacked
      refine ⟨a', hstacked', fun classId => ?_, ?_⟩
      · have hone := a.step_count call classId
        have hrest := hcount classId
        rw [← hresult] at hone
        rw [List.countP_cons, List.countP_cons]
        dsimp only at hone
        omega
      · have hone := a.step_violations call
        rw [← hresult] at hone
        rw [hviolations, hone, List.countP_cons]
        dsimp only
        omega

/-- The discipline of a checker after some calls: its slots, what is held, what was counted, and
what further calls can do. -/
structure Disciplined (trace : List (LockdepCall × McsSync)) (state : McsLockdepState) :
    Prop where
  depth : state.depth ≤ mcsLockdepMaxHeld
  increasing : ∀ i j, i < j → j < state.depth → state.heldClass i < state.heldClass j
  nonzero : ∀ i, i < state.depth → state.heldClass i ≠ 0
  cleared : ∀ i, state.depth ≤ i → i < mcsLockdepMaxHeld → state.heldClass i = 0
  held : ∀ classId, mcsLockdepIsHeld state classId = true ↔
    trace.countP (isRelease classId) < trace.countP (isAcquire classId)
  violations : state.violationCount = UInt32.ofNat (trace.countP isViolation)
  invalid : ∀ call, (lockdepStep state call).2 = .einval → (lockdepStep state call).1 = state
  failed : ∀ call, (lockdepStep state call).2 ≠ .ok → (lockdepStep state call).2 ≠ .einval →
    (lockdepStep state call).1 = { state with violationCount := state.violationCount + 1 }
  restored : ∀ classId name, (mcsLockdepBeforeAcquire state classId name).2 = .ok →
    mcsLockdepAfterRelease (mcsLockdepBeforeAcquire state classId name).1 classId = (state, .ok)

theorem lockdepStep_cases (state : McsLockdepState) (call : LockdepCall) :
    Refused McsLockdepState.violation state (lockdepStep state call) ∨
      (lockdepStep state call).2 = .ok := by
  cases call with
  | beforeAcquire classId name =>
      refine (mcsLockdepBeforeAcquire_cases state classId name).imp_right fun hpushed => ?_
      rw [lockdepStep, hpushed.2]
  | afterRelease classId =>
      refine (mcsLockdepAfterRelease_cases state classId).imp_right fun hpopped => ?_
      rw [lockdepStep, hpopped.2]

/-- From an initialised checker on, any sequence of calls keeps the discipline. -/
theorem run_disciplined {start : McsLockdepState}
    (hrun : Run lockdepSystem (mcsLockdepInit start) trace state) : Disciplined trace state := by
  obtain ⟨a, h, hcount, hviolations⟩ := (stacked_init start).run hrun
  have hdepth := h.depth
  refine ⟨?_, fun i j hij hj => ?_, fun i hi => ?_, fun i hi hmax => ?_, fun classId => ?_, ?_,
    fun call hinval => ?_, fun call hne hvalid => ?_,
    fun classId name hok => h.release_acquired hok⟩
  · rw [hdepth]
    exact h.room
  · rw [h.slot_eq (by omega), h.slot_eq (by omega)]
    exact List.pairwise_iff_getElem.mp h.increasing i j (by omega) (by omega) hij
  · rw [h.slot_eq (by omega)]
    exact h.nonzero _ (List.getElem_mem _)
  · exact h.slot_zero (by omega) hmax
  · have hbalance := hcount classId
    rw [List.count_nil] at hbalance
    rw [h.isHeld, ← List.count_pos_iff]
    omega
  · rw [h.violations, hviolations, Nat.zero_add]
  · rcases lockdepStep_cases state call with (heq | ⟨rc, hne, hvalid, heq⟩) | hok
    · rw [heq]
    · rw [heq] at hinval
      exact absurd hinval hvalid
    · rw [hok] at hinval
      cases hinval
  · rcases lockdepStep_cases state call with (heq | ⟨rc, -, -, heq⟩) | hok
    · rw [heq] at hvalid
      exact absurd rfl hvalid
    · rw [heq]
      rfl
    · exact absurd hok hne

end Runs

/-- A checker that was used before. -/
def oldLockdep : McsLockdepState := ⟨fun _ => 7, fun _ => none, 3, 9⟩

/-- Two classes are taken, two calls break the order, and one class is given back. -/
def orderCalls : List LockdepCall :=
  [.beforeAcquire 10 (some "pmm"), .beforeAcquire 20 (some "vmm"), .beforeAcquire 10 (some "pmm"),
    .afterRelease 10, .afterRelease 20, .afterRelease 0]

def orderTrace : List (LockdepCall × McsSync) :=
  orderCalls.zip [.ok, .ok, .edeadlk, .edeadlk, .ok, .einval]

theorem run_disciplined_orderTrace :
    ∃ state, Run lockdepSystem (mcsLockdepInit oldLockdep) orderTrace state ∧
      mcsLockdepIsHeld state 10 = true ∧ mcsLockdepIsHeld state 20 = false ∧
      state.violationCount = 2 := by
  have hrun : Run lockdepSystem (mcsLockdepInit oldLockdep) orderTrace
      (orderCalls.foldl (fun state call => (lockdepStep state call).1)
        (mcsLockdepInit oldLockdep)) := by
    refine .cons trivial rfl (.cons trivial rfl (.cons trivial rfl ?_))
    exact .cons trivial rfl (.cons trivial rfl (.cons trivial rfl (.nil _)))
  have hdisciplined := run_disciplined hrun
  refine ⟨_, hrun, (hdisciplined.held 10).mpr (by decide), ?_, ?_⟩
  · rw [← Bool.not_eq_true, hdisciplined.held]
    decide
  · rw [hdisciplined.violations]
    decide

end Mcsos.LockdepStack

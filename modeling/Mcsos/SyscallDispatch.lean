import Mathlib.Data.List.Induction
import Mcsos.SyscallRegion

namespace Mcsos.SyscallDispatch

open Mcsos.SyscallModel
open Mcsos.SyscallRegion

variable {σ : Type}

/-- The number of the system call that an operation is for. -/
def opNumber : OpCall → UInt64
  | .getTicks => 1
  | .writeSerial _ _ => 2
  | .yieldCurrent => 3
  | .exitCurrent _ => 4

/-- The pointer to an operation is not null. -/
def registered (ops : McsosSyscallOps σ) : OpCall → Bool
  | .getTicks => ops.getTicks.isSome
  | .writeSerial _ _ => ops.writeSerial.isSome
  | .yieldCurrent => ops.yieldCurrent.isSome
  | .exitCurrent _ => ops.exitCurrent.isSome

/-- The bytes that an operation is given are at most 4096, and lie in the user region. -/
def Bounded (region : McsosUserRegion) : OpCall → Prop
  | .writeSerial buf len => len ≤ 4096 ∧ UserRange region buf.toNat len.toNat
  | _ => True

/-- What a system call has done when it returns: it has called one operation at most, the one
for its number, through a pointer that is not null. -/
structure Served (g g' : SyscallState σ) (nr : UInt64) : Prop where
  gOps : g'.gOps = g.gOps
  gUserRegion : g'.gUserRegion = g.gUserRegion
  made : ∃ made, g'.calls = g.calls ++ made ∧ made.length ≤ 1 ∧
    ∀ op ∈ made, registered g.gOps op = true ∧ opNumber op = nr ∧ Bounded g.gUserRegion op

/-- The arguments with which `sys_write_serial` gets to its operation. -/
def WriteArgs (region : McsosUserRegion) (args : SyscallArgs) : Prop :=
  args.arg0 ≠ 0 ∧ args.arg1 ≤ 4096 ∧ UserRange region args.arg0.toNat args.arg1.toNat

section Handlers

variable {g : SyscallState σ}

theorem Served.refl (g : SyscallState σ) (nr : UInt64) : Served g g nr := by
  refine ⟨rfl, rfl, [], (List.append_nil _).symm, Nat.zero_le _, fun op hop => ?_⟩
  exact absurd hop List.not_mem_nil

theorem Served.one {g' : SyscallState σ} (op : OpCall) (hops : g'.gOps = g.gOps)
    (hregion : g'.gUserRegion = g.gUserRegion) (hcalls : g'.calls = g.calls ++ [op])
    (hregistered : registered g.gOps op = true) (hbounded : Bounded g.gUserRegion op) :
    Served g g' (opNumber op) := by
  refine ⟨hops, hregion, [op], hcalls, Nat.le_refl 1, fun op' hop' => ?_⟩
  rw [List.mem_singleton.mp hop']
  exact ⟨hregistered, rfl, hbounded⟩

theorem sysGetTicks_served (g : SyscallState σ) (args : SyscallArgs) :
    ∃ g' ret, sysGetTicks g args = some (g', ret) ∧ Served g g' 1 := by
  rw [sysGetTicks]
  rcases hptr : g.gOps.getTicks with _ | getTicks
  · exact ⟨_, _, rfl, .refl g 1⟩
  · refine ⟨_, _, rfl, .one .getTicks rfl rfl rfl ?_ trivial⟩
    rw [registered, hptr]
    rfl

theorem sysYield_served (g : SyscallState σ) (args : SyscallArgs) :
    ∃ g' ret, sysYield g args = some (g', ret) ∧ Served g g' 3 := by
  rw [sysYield]
  rcases hptr : g.gOps.yieldCurrent with _ | yieldCurrent
  · exact ⟨_, _, rfl, .refl g 3⟩
  · refine ⟨_, _, rfl, .one .yieldCurrent rfl rfl rfl ?_ trivial⟩
    rw [registered, hptr]
    rfl

theorem sysExitThread_served (g : SyscallState σ) (args : SyscallArgs) :
    ∃ g' ret, sysExitThread g args = some (g', ret) ∧ Served g g' 4 := by
  rw [sysExitThread]
  rcases hptr : g.gOps.exitCurrent with _ | exitCurrent
  · exact ⟨_, _, rfl, .refl g 4⟩
  · refine ⟨_, _, rfl, .one (.exitCurrent _) rfl rfl rfl ?_ trivial⟩
    rw [registered, hptr]
    rfl

theorem sysWriteSerial_cases (g : SyscallState σ) (args : SyscallArgs) :
    (WriteArgs g.gUserRegion args ∧ g.gOps.writeSerial = none) ∧ sysWriteSerial g args = none ∨
      ¬(WriteArgs g.gUserRegion args ∧ g.gOps.writeSerial = none) ∧
        ∃ g' ret, sysWriteSerial g args = some (g', ret) ∧ Served g g' 2 := by
  have hrange := mcsosUserCheckRange_iff g args.arg0 args.arg1
  rw [sysWriteSerial]
  dsimp only
  split
  case isTrue hnull => exact .inr ⟨fun h => h.1.1 hnull, _, _, rfl, .refl g 2⟩
  case isFalse hptr =>
    split
    case isTrue hlong => exact .inr ⟨fun h => UInt64.not_lt.mpr h.1.2.1 hlong, _, _, rfl, .refl g 2⟩
    case isFalse hlen =>
      split
      case isTrue hrefused =>
        refine .inr ⟨fun h => ?_, _, _, rfl, .refl g 2⟩
        rw [hrange.mpr h.1.2.2] at hrefused
        cases hrefused
      case isFalse hinside =>
        have hbounded : UserRange g.gUserRegion args.arg0.toNat args.arg1.toNat := by
          rw [← hrange]
          exact Bool.not_eq_false _ ▸ hinside
        have hargs : WriteArgs g.gUserRegion args := ⟨hptr, UInt64.not_lt.mp hlen, hbounded⟩
        rcases hop : g.gOps.writeSerial with _ | writeSerial
        · exact .inl ⟨⟨hargs, rfl⟩, rfl⟩
        · refine .inr ⟨fun h => (by cases h.2), _, _, rfl,
            .one (.writeSerial _ _) rfl rfl rfl ?_ ⟨hargs.2.1, hargs.2.2⟩⟩
          rw [registered, hop]
          rfl

theorem number_cases {nr : UInt64} (h : nr < mcsosSysMax) :
    nr = 0 ∨ nr = 1 ∨ nr = 2 ∨ nr = 3 ∨ nr = 4 := by
  have hlt : nr.toNat < 5 := h
  simp only [← UInt64.toNat_inj, UInt64.reduceToNat]
  omega

/-- A call that does not return: it gets to the operation of `sys_write_serial` before there is
one. -/
def Unserved (g : SyscallState σ) (nr : UInt64) (args : SyscallArgs) : Prop :=
  nr = 2 ∧ WriteArgs g.gUserRegion args ∧ g.gOps.writeSerial = none

theorem mcsosSyscallDispatch_cases (g : SyscallState σ) (nr : UInt64) (args : SyscallArgs) :
    Unserved g nr args ∧ mcsosSyscallDispatch g nr args = none ∨
      ¬Unserved g nr args ∧
        ∃ g' ret, mcsosSyscallDispatch g nr args = some (g', ret) ∧ Served g g' nr := by
  have hother : ∀ {nr : UInt64}, nr ≠ 2 → ¬Unserved g nr args := fun hne h => hne h.1
  by_cases hmax : nr ≥ mcsosSysMax
  · refine .inr ⟨hother ?_, g, mcsosEnosys, if_pos hmax, .refl g nr⟩
    rintro rfl
    exact absurd hmax (by decide)
  · rcases number_cases (UInt64.not_le.mp hmax) with rfl | rfl | rfl | rfl | rfl
    · exact .inr ⟨hother (by decide), g, _, rfl, .refl g 0⟩
    · exact .inr ⟨hother (by decide), sysGetTicks_served g args⟩
    · rcases sysWriteSerial_cases g args with ⟨hnull, hnone⟩ | ⟨hcalled, hserved⟩
      · exact .inl ⟨⟨rfl, hnull⟩, hnone⟩
      · exact .inr ⟨fun h => hcalled h.2, hserved⟩
    · exact .inr ⟨hother (by decide), sysYield_served g args⟩
    · exact .inr ⟨hother (by decide), sysExitThread_served g args⟩

theorem mcsosSyscallDispatch_served {g g' : SyscallState σ} {nr : UInt64} {args : SyscallArgs}
    {ret : Int64} (h : mcsosSyscallDispatch g nr args = some (g', ret)) : Served g g' nr := by
  rcases mcsosSyscallDispatch_cases g nr args with ⟨-, hnone⟩ | ⟨-, g'', ret', hsome, hserved⟩
  · rw [hnone] at h
    cases h
  · rw [hsome] at h
    cases h
    exact hserved

end Handlers

inductive SyscallCall (σ : Type) where
  | init (ops : Option (McsosSyscallOps σ))
  | setUserRegion (region : McsosUserRegion)
  | dispatch (nr : UInt64) (args : SyscallArgs)

def syscallStep (g : SyscallState σ) : SyscallCall σ → Option (SyscallState σ)
  | .init ops => some (mcsosSyscallInit g ops)
  | .setUserRegion region => some (mcsosSyscallSetUserRegion g region)
  | .dispatch nr args => (mcsosSyscallDispatch g nr args).map Prod.fst

/-- The state after some calls, if all of them return. -/
def runCalls (g : SyscallState σ) : List (SyscallCall σ) → Option (SyscallState σ)
  | [] => some g
  | call :: calls => (syscallStep g call).bind fun g => runCalls g calls

def regionStep (region : McsosUserRegion) : SyscallCall σ → McsosUserRegion
  | .init _ => region
  | .setUserRegion region => region
  | .dispatch _ _ => region

/-- The user region that was set last. -/
def lastRegion (calls : List (SyscallCall σ)) : McsosUserRegion := calls.foldl regionStep ⟨0, 0⟩

def Initialised (calls : List (SyscallCall σ)) : Prop := ∃ ops, SyscallCall.init ops ∈ calls

/-- Every system call of a sequence returns, and has called one registered operation at most,
the one for its number, with bytes of the user region only. -/
def Closed (env : σ) (calls : List (SyscallCall σ)) : Prop :=
  ∀ before nr args after, calls = before ++ .dispatch nr args :: after →
    ∃ g g' ret made, runCalls (zeroGlobals env) before = some g ∧
      mcsosSyscallDispatch g nr args = some (g', ret) ∧
      g'.calls = g.calls ++ made ∧ made.length ≤ 1 ∧
      ∀ op ∈ made, registered g.gOps op = true ∧ opNumber op = nr ∧
        Bounded (lastRegion before) op

/-- Before the first initialisation, a system call gets to the operation that writes. -/
def EarlyWrite (calls : List (SyscallCall σ)) : Prop :=
  ∃ before args after, calls = before ++ .dispatch 2 args :: after ∧ ¬Initialised before ∧
    WriteArgs (lastRegion before) args

section Sequences

theorem runCalls_append (g : SyscallState σ) (first second : List (SyscallCall σ)) :
    runCalls g (first ++ second) = (runCalls g first).bind fun g => runCalls g second := by
  induction first generalizing g with
  | nil => rfl
  | cons call first ih =>
      rw [List.cons_append, runCalls, runCalls]
      rcases syscallStep g call with _ | g'
      · rfl
      · exact ih g'

theorem runCalls_concat {g g' : SyscallState σ} {calls : List (SyscallCall σ)}
    {call : SyscallCall σ} (h : runCalls g (calls ++ [call]) = some g') :
    ∃ mid, runCalls g calls = some mid ∧ syscallStep mid call = some g' := by
  rw [runCalls_append] at h
  obtain ⟨mid, hmid, hlast⟩ := Option.bind_eq_some_iff.mp h
  rw [runCalls] at hlast
  obtain ⟨g'', hstep, hnil⟩ := Option.bind_eq_some_iff.mp hlast
  cases hnil
  exact ⟨mid, hmid, hstep⟩

theorem lastRegion_concat (calls : List (SyscallCall σ)) (call : SyscallCall σ) :
    lastRegion (calls ++ [call]) = regionStep (lastRegion calls) call := by
  rw [lastRegion, List.foldl_append]
  rfl

theorem initialised_concat {calls : List (SyscallCall σ)} {call : SyscallCall σ} :
    Initialised (calls ++ [call]) ↔ Initialised calls ∨ ∃ ops, call = .init ops := by
  constructor
  · rintro ⟨ops, hmem⟩
    rcases List.mem_append.mp hmem with hold | hnew
    · exact .inl ⟨ops, hold⟩
    · exact .inr ⟨ops, (List.mem_singleton.mp hnew).symm⟩
  · rintro (⟨ops, hold⟩ | ⟨ops, rfl⟩)
    · exact ⟨ops, List.mem_append_left _ hold⟩
    · exact ⟨ops, List.mem_append_right _ List.mem_cons_self⟩

/-- The globals are what the calls so far have made of them. -/
structure Tracks (calls : List (SyscallCall σ)) (g : SyscallState σ) : Prop where
  region : g.gUserRegion = lastRegion calls
  writeSerial : g.gOps.writeSerial = none ↔ ¬Initialised calls

theorem mcsosSyscallInit_writeSerial (g : SyscallState σ) (ops : Option (McsosSyscallOps σ)) :
    (mcsosSyscallInit g ops).gOps.writeSerial ≠ none := by
  rcases ops with _ | ops
  · exact Option.some_ne_none _
  · rw [mcsosSyscallInit]
    dsimp only
    rcases ops.writeSerial with _ | writeSerial
    · exact Option.some_ne_none _
    · exact Option.some_ne_none _

theorem tracks_nil (env : σ) : Tracks [] (zeroGlobals env) := by
  refine ⟨rfl, iff_of_true rfl ?_⟩
  rintro ⟨ops, hmem⟩
  exact absurd hmem List.not_mem_nil

theorem Tracks.step {calls : List (SyscallCall σ)} {g g' : SyscallState σ} (h : Tracks calls g)
    {call : SyscallCall σ} (hstep : syscallStep g call = some g') :
    Tracks (calls ++ [call]) g' := by
  cases call with
  | init ops =>
      cases hstep
      refine ⟨?_, iff_of_false (mcsosSyscallInit_writeSerial g ops) ?_⟩
      · rw [lastRegion_concat, regionStep, ← h.region]
        rcases ops with _ | ops
        · rfl
        · rfl
      · rw [not_not, initialised_concat]
        exact .inr ⟨ops, rfl⟩
  | setUserRegion region =>
      cases hstep
      refine ⟨?_, ?_⟩
      · rw [lastRegion_concat]
        rfl
      · rw [initialised_concat, or_iff_left (by simp)]
        exact h.writeSerial
  | dispatch nr args =>
      obtain ⟨⟨g'', ret⟩, hdispatch, rfl⟩ := Option.map_eq_some_iff.mp hstep
      have hserved := mcsosSyscallDispatch_served hdispatch
      refine ⟨?_, ?_⟩
      · rw [lastRegion_concat, regionStep, ← h.region]
        exact hserved.gUserRegion
      · rw [initialised_concat, or_iff_left (by simp), hserved.gOps]
        exact h.writeSerial

theorem tracks_runCalls {env : σ} (calls : List (SyscallCall σ)) :
    ∀ {g}, runCalls (zeroGlobals env) calls = some g → Tracks calls g := by
  induction calls using List.reverseRecOn with
  | nil =>
      intro g hrun
      cases hrun
      exact tracks_nil env
  | append_singleton calls call ih =>
      intro g hrun
      obtain ⟨mid, hmid, hstep⟩ := runCalls_concat hrun
      exact (ih hmid).step hstep

theorem Tracks.unserved_iff {calls : List (SyscallCall σ)} {g : SyscallState σ}
    (h : Tracks calls g) {nr : UInt64} {args : SyscallArgs} :
    Unserved g nr args ↔ nr = 2 ∧ ¬Initialised calls ∧ WriteArgs (lastRegion calls) args := by
  rw [Unserved, h.region, h.writeSerial, and_comm (a := WriteArgs _ _)]

theorem EarlyWrite.append {first : List (SyscallCall σ)} (h : EarlyWrite first)
    (second : List (SyscallCall σ)) : EarlyWrite (first ++ second) := by
  obtain ⟨before, args, after, rfl, hinit, hargs⟩ := h
  refine ⟨before, args, after ++ second, ?_, hinit, hargs⟩
  rw [List.append_assoc, List.cons_append]

theorem exists_runCalls (env : σ) (calls : List (SyscallCall σ)) (h : ¬EarlyWrite calls) :
    ∃ g, runCalls (zeroGlobals env) calls = some g := by
  induction calls using List.reverseRecOn with
  | nil => exact ⟨zeroGlobals env, rfl⟩
  | append_singleton calls call ih =>
      obtain ⟨g, hrun⟩ := ih fun hearly => h (hearly.append [call])
      rw [runCalls_append, hrun, Option.bind_some, runCalls]
      cases call with
      | init ops => exact ⟨_, rfl⟩
      | setUserRegion region => exact ⟨_, rfl⟩
      | dispatch nr args =>
          rcases mcsosSyscallDispatch_cases g nr args with
            ⟨hunserved, -⟩ | ⟨-, g', ret, hdispatch, -⟩
          · obtain ⟨rfl, hinit, hargs⟩ := (tracks_runCalls calls hrun).unserved_iff.mp hunserved
            exact absurd ⟨calls, args, [], rfl, hinit, hargs⟩ h
          · rw [syscallStep, hdispatch]
            exact ⟨g', rfl⟩

/-- For every sequence of calls: the dispatch is closed exactly when nothing is written before
the first initialisation. -/
theorem closed_iff (env : σ) (calls : List (SyscallCall σ)) :
    Closed env calls ↔ ¬EarlyWrite calls := by
  constructor
  · rintro hclosed ⟨before, args, after, hcalls, hinit, hargs⟩
    obtain ⟨g, g', ret, -, hrun, hdispatch, -⟩ := hclosed before 2 args after hcalls
    have hunserved := (tracks_runCalls before hrun).unserved_iff.mpr ⟨rfl, hinit, hargs⟩
    rcases mcsosSyscallDispatch_cases g 2 args with ⟨-, hnone⟩ | ⟨hserved, -⟩
    · rw [hnone] at hdispatch
      cases hdispatch
    · exact hserved hunserved
  · rintro hearly before nr args after rfl
    have hbefore : ¬EarlyWrite before := fun h => hearly (h.append _)
    obtain ⟨g, hrun⟩ := exists_runCalls env before hbefore
    have htracks := tracks_runCalls before hrun
    rcases mcsosSyscallDispatch_cases g nr args with
      ⟨hunserved, -⟩ | ⟨-, g', ret, hdispatch, hserved⟩
    · obtain ⟨rfl, hinit, hargs⟩ := htracks.unserved_iff.mp hunserved
      exact absurd ⟨before, args, after, rfl, hinit, hargs⟩ hearly
    · obtain ⟨made, hmade⟩ := hserved.made
      rw [htracks.region] at hmade
      exact ⟨g, g', ret, made, hrun, hdispatch, hmade⟩

end Sequences

/-- The first call of all writes no bytes. -/
def earlyCalls : List (SyscallCall Unit) := [.dispatch 2 ⟨0x1000, 0, 0, 0, 0, 0⟩]

/-- The null pointer is called. -/
theorem not_closed_earlyCalls :
    mcsosSyscallDispatch (zeroGlobals ()) 2 ⟨0x1000, 0, 0, 0, 0, 0⟩ = none ∧
      ¬Closed () earlyCalls := by
  refine ⟨rfl, fun hclosed => ?_⟩
  obtain ⟨g, g', ret, made, hrun, hdispatch, -⟩ :=
    hclosed [] 2 ⟨0x1000, 0, 0, 0, 0, 0⟩ [] rfl
  cases hrun
  cases hdispatch

end Mcsos.SyscallDispatch

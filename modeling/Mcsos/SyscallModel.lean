import Mathlib.Init

/-!
The system calls of `mcsos/kernel/syscall/syscall.c`.  A function pointer is `none` when it is
null.  The operations behind the pointers work on a state of their own, of type `σ`, and
every call that is made of them is recorded.
-/

namespace Mcsos.SyscallModel

def mcsosSysMax : UInt64 := 5

/-- The values of `mcsos_syscall_status_t` that are returned. -/
def mcsosOk : Int64 := 0

def mcsosEinval : Int64 := -22

def mcsosEnosys : Int64 := -38

def mcsosEfault : Int64 := -14

def mcsosEbusy : Int64 := -16

structure McsosUserRegion where
  base : UInt64
  limit : UInt64
deriving DecidableEq, Repr

/-- `mcsos_syscall_ops_t`. -/
structure McsosSyscallOps (σ : Type) where
  getTicks : Option (σ → σ × UInt64)
  yieldCurrent : Option (σ → σ)
  exitCurrent : Option (Int32 → σ → σ)
  writeSerial : Option (UInt64 → UInt64 → σ → σ × Int64)

/-- A call of an operation, with its arguments. -/
inductive OpCall where
  | getTicks
  | writeSerial (buf len : UInt64)
  | yieldCurrent
  | exitCurrent (code : Int32)
deriving DecidableEq, Repr

/-- The two global variables, the state behind the operations, and the calls of operations
so far. -/
structure SyscallState (σ : Type) where
  gOps : McsosSyscallOps σ
  gUserRegion : McsosUserRegion
  env : σ
  calls : List OpCall

/-- The six arguments of a system call. -/
structure SyscallArgs where
  arg0 : UInt64
  arg1 : UInt64
  arg2 : UInt64
  arg3 : UInt64
  arg4 : UInt64
  arg5 : UInt64
deriving DecidableEq, Repr

/-- `mcsos_syscall_frame_t`. -/
structure McsosSyscallFrame where
  nr : UInt64
  args : SyscallArgs
  ret : Int64
deriving DecidableEq, Repr

section Calls

variable {σ : Type}

/-- The globals before anything was called. -/
def zeroGlobals (env : σ) : SyscallState σ where
  gOps := ⟨none, none, none, none⟩
  gUserRegion := ⟨0, 0⟩
  env := env
  calls := []

def defaultWriteSerial (_ len : UInt64) (env : σ) : σ × Int64 := (env, len.toInt64)

/-- `mcsos_syscall_init`; a null table of operations is `none`. -/
def mcsosSyscallInit (g : SyscallState σ) (ops : Option (McsosSyscallOps σ)) : SyscallState σ :=
  let gOps : McsosSyscallOps σ := ⟨none, none, none, some defaultWriteSerial⟩
  match ops with
  | none => { g with gOps := gOps }
  | some ops =>
      { g with
        gOps :=
          { getTicks := ops.getTicks.or gOps.getTicks
            yieldCurrent := ops.yieldCurrent.or gOps.yieldCurrent
            exitCurrent := ops.exitCurrent.or gOps.exitCurrent
            writeSerial := ops.writeSerial.or gOps.writeSerial } }

def mcsosSyscallSetUserRegion (g : SyscallState σ) (region : McsosUserRegion) : SyscallState σ :=
  { g with gUserRegion := region }

def mcsosUserCheckRange (g : SyscallState σ) (addr len : UInt64) : Bool :=
  if len = 0 then true
  else if g.gUserRegion.base = 0 ∨ g.gUserRegion.limit ≤ g.gUserRegion.base then false
  else if addr < g.gUserRegion.base then false
  else if addr > g.gUserRegion.limit then false
  else
    let last := addr + len - 1
    if last < addr then false
    else if last ≥ g.gUserRegion.limit then false
    else true

/-- The handlers.  There is no result when a null pointer is called. -/
abbrev SyscallFn (σ : Type) := SyscallState σ → SyscallArgs → Option (SyscallState σ × Int64)

def sysPing : SyscallFn σ := fun g _ => some (g, 0x2605020a)

def sysGetTicks : SyscallFn σ := fun g _ =>
  match g.gOps.getTicks with
  | none => some (g, mcsosEbusy)
  | some getTicks =>
      let (env, ticks) := getTicks g.env
      some ({ g with env := env, calls := g.calls ++ [.getTicks] }, ticks.toInt64)

def sysWriteSerial : SyscallFn σ := fun g args =>
  let ptr := args.arg0
  let len := args.arg1
  if ptr = 0 then some (g, mcsosEinval)
  else if len > 4096 then some (g, mcsosEinval)
  else if mcsosUserCheckRange g ptr len = false then some (g, mcsosEfault)
  else
    match g.gOps.writeSerial with
    | none => none
    | some writeSerial =>
        let (env, ret) := writeSerial ptr len g.env
        some ({ g with env := env, calls := g.calls ++ [.writeSerial ptr len] }, ret)

def sysYield : SyscallFn σ := fun g _ =>
  match g.gOps.yieldCurrent with
  | none => some (g, mcsosEbusy)
  | some yieldCurrent =>
      some ({ g with env := yieldCurrent g.env, calls := g.calls ++ [.yieldCurrent] }, mcsosOk)

def sysExitThread : SyscallFn σ := fun g args =>
  match g.gOps.exitCurrent with
  | none => some (g, mcsosEbusy)
  | some exitCurrent =>
      let code := args.arg0.toUInt32.toInt32
      some ({ g with env := exitCurrent code g.env, calls := g.calls ++ [.exitCurrent code] },
        mcsosOk)

def gTable (σ : Type) : List (Option (SyscallFn σ)) :=
  [some sysPing, some sysGetTicks, some sysWriteSerial, some sysYield, some sysExitThread]

def mcsosSyscallDispatch (g : SyscallState σ) (nr : UInt64) (args : SyscallArgs) :
    Option (SyscallState σ × Int64) :=
  if nr ≥ mcsosSysMax then some (g, mcsosEnosys)
  else
    match (gTable σ).getD nr.toNat none with
    | none => some (g, mcsosEnosys)
    | some fn => fn g args

/-- `mcsos_syscall_dispatch_frame`; a null frame is `none`. -/
def mcsosSyscallDispatchFrame (g : SyscallState σ) (frame : Option McsosSyscallFrame) :
    Option (SyscallState σ × Option McsosSyscallFrame) :=
  match frame with
  | none => some (g, none)
  | some frame =>
      (mcsosSyscallDispatch g frame.nr frame.args).map fun (g, ret) =>
        (g, some { frame with ret := ret })

end Calls

end Mcsos.SyscallModel

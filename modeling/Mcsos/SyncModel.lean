import Mcsos.Interleaving

/-!
The mutex and the spinlock of `mcsos/kernel/sync`, cut at their accesses to shared
words.  Every access is one step, and steps of different callers are interleaved.
The lock that the callers pass is never null.
-/

namespace Mcsos.SyncModel

open Mcsos.CallSystem
open Mcsos.Interleaving

universe u

/-- The return codes of `mcs_sync.h` that the mutex uses. -/
inductive McsSyncResult where
  | ok
  | einval
  | ebusy
  | eperm
  | edeadlk
deriving DecidableEq, Repr

/-- The words of `mcs_mutex_t` that change. -/
structure McsMutex where
  locked : UInt32
  owner : UInt64
deriving DecidableEq, Repr

def mcsMutexInit : McsMutex := ⟨0, 0⟩

/-- Where a call goes on after a step, or what it returns. -/
inductive Progress (Pc : Type) where
  | goto (pc : Pc)
  | returned (result : McsSyncResult)
deriving DecidableEq, Repr

/-- The steps of `mcs_mutex_try_lock`. -/
inductive TryLockPc where
  | entry
  | compareExchange
  | loadOwner
  | storeOwner
deriving DecidableEq, Repr

def mcsMutexTryLock (ownerId : UInt64) (mutex : McsMutex) :
    TryLockPc → McsMutex × Progress TryLockPc
  | .entry =>
      if ownerId = 0 then (mutex, .returned .einval) else (mutex, .goto .compareExchange)
  | .compareExchange =>
      if mutex.locked = 0 then ({ mutex with locked := 1 }, .goto .storeOwner)
      else (mutex, .goto .loadOwner)
  | .loadOwner =>
      if mutex.owner = ownerId then (mutex, .returned .edeadlk) else (mutex, .returned .ebusy)
  | .storeOwner => ({ mutex with owner := ownerId }, .returned .ok)

/-- The steps of `mcs_mutex_unlock`. -/
inductive UnlockPc where
  | entry
  | loadOwner
  | clearOwner
  | clearLocked
deriving DecidableEq, Repr

def mcsMutexUnlock (ownerId : UInt64) (mutex : McsMutex) :
    UnlockPc → McsMutex × Progress UnlockPc
  | .entry => if ownerId = 0 then (mutex, .returned .einval) else (mutex, .goto .loadOwner)
  | .loadOwner =>
      if mutex.owner ≠ ownerId then (mutex, .returned .eperm) else (mutex, .goto .clearOwner)
  | .clearOwner => ({ mutex with owner := 0 }, .goto .clearLocked)
  | .clearLocked => ({ mutex with locked := 0 }, .returned .ok)

inductive MutexCall where
  | tryLock
  | unlock
deriving DecidableEq, Repr

inductive MutexPc where
  | outside
  | tryLock (pc : TryLockPc)
  | unlock (pc : UnlockPc)
deriving DecidableEq, Repr

/-- A sequential client.  It is `holding` from a compare-and-exchange of its own that
succeeds to its next store of zero to `locked`; no code reads this. -/
structure MutexClient where
  pc : MutexPc
  holding : Bool
deriving DecidableEq, Repr

/-- A client starts a call, or goes on with the one it is in. -/
inductive MutexAction where
  | call (call : MutexCall)
  | advance
deriving DecidableEq, Repr

/-- The call that returned in a step, if one did, and its result. -/
abbrev MutexEvent := Option (MutexCall × McsSyncResult)

def resume {Pc : Type} (call : MutexCall) (inside : Pc → MutexPc) (holding : Bool) :
    McsMutex × Progress Pc → MutexClient × McsMutex × MutexEvent
  | (mutex, .goto pc) => (⟨inside pc, holding⟩, mutex, none)
  | (mutex, .returned result) => (⟨.outside, holding⟩, mutex, some (call, result))

def mutexStep (ownerId : UInt64) (client : MutexClient) (mutex : McsMutex) :
    MutexAction → Option (MutexClient × McsMutex × MutexEvent)
  | .call .tryLock =>
      if client.pc = .outside then some (⟨.tryLock .entry, client.holding⟩, mutex, none) else none
  | .call .unlock =>
      if client.pc = .outside then some (⟨.unlock .entry, client.holding⟩, mutex, none) else none
  | .advance =>
      match client.pc with
      | .outside => none
      | .tryLock pc =>
          let acquired := pc = .compareExchange ∧ mutex.locked = 0
          some (resume .tryLock .tryLock (client.holding || decide acquired)
            (mcsMutexTryLock ownerId mutex pc))
      | .unlock pc =>
          some (resume .unlock .unlock (client.holding && pc ≠ .clearLocked)
            (mcsMutexUnlock ownerId mutex pc))

/-- Any clients `ι` with owner ids `ownerId`, calling in any order and any number of
times. -/
def mutexSystem {ι : Type u} [DecidableEq ι] (ownerId : ι → UInt64) :
    System (Config ι MutexClient McsMutex) (ι × MutexAction) MutexEvent :=
  interleave fun i client mutex action => mutexStep (ownerId i) client mutex action

def mutexStart (ι : Type u) : Config ι MutexClient McsMutex :=
  ⟨fun _ => ⟨.outside, false⟩, mcsMutexInit⟩

def mcsMutexIsLocked (mutex : McsMutex) : Bool := mutex.locked != 0

def mcsMutexOwner (mutex : McsMutex) : UInt64 := mutex.owner

inductive MutexQuery where
  | isLocked
  | owner
deriving DecidableEq, Repr

/-- A client that also asks queries, with the one it is in. -/
structure QueryClient where
  client : MutexClient
  query : Option MutexQuery
deriving DecidableEq, Repr

/-- A step of one of the calls above, the start of a query, or the load of the query, which
is its only access. -/
inductive QueryAction where
  | mutex (action : MutexAction)
  | ask (query : MutexQuery)
  | load
deriving DecidableEq, Repr

/-- What returned in a step. -/
inductive QueryEvent where
  | mutex (event : MutexEvent)
  | asked
  | isLocked (locked : Bool)
  | owner (owner : UInt64)
deriving DecidableEq, Repr

def queryStep (ownerId : UInt64) (l : QueryClient) (mutex : McsMutex) :
    QueryAction → Option (QueryClient × McsMutex × QueryEvent)
  | .mutex action =>
      if l.query = none then
        (mutexStep ownerId l.client mutex action).map fun next =>
          (⟨next.1, none⟩, next.2.1, .mutex next.2.2)
      else none
  | .ask query =>
      if l.client.pc = .outside ∧ l.query = none then some (⟨l.client, some query⟩, mutex, .asked)
      else none
  | .load =>
      match l.query with
      | none => none
      | some .isLocked => some (⟨l.client, none⟩, mutex, .isLocked (mcsMutexIsLocked mutex))
      | some .owner => some (⟨l.client, none⟩, mutex, .owner (mcsMutexOwner mutex))

def querySystem {ι : Type u} [DecidableEq ι] (ownerId : ι → UInt64) :
    System (Config ι QueryClient McsMutex) (ι × QueryAction) QueryEvent :=
  interleave fun i l mutex action => queryStep (ownerId i) l mutex action

def queryStart (ι : Type u) : Config ι QueryClient McsMutex :=
  ⟨fun _ => ⟨⟨.outside, false⟩, none⟩, mcsMutexInit⟩

/-- The word of `mcs_spinlock_t` that changes, and a counter that the lock protects. -/
structure SpinShared where
  locked : UInt32
  counter : UInt64
deriving DecidableEq, Repr

/-- `mcs_spin_try_lock`: the new value of the word, and whether the lock was taken. -/
def mcsSpinTryLock (locked : UInt32) : UInt32 × Bool := (1, locked = 0)

def mcsSpinUnlock : UInt32 := 0

def mcsSpinIsLocked (locked : UInt32) : Bool := locked != 0

/-- The next access of a thread that repeats `mcs_spin_lock`, an increment of the
counter and `mcs_spin_unlock`.  The first two are the loops of `mcs_spin_lock`. -/
inductive WorkerPc where
  | tryLock
  | poll
  | loadCounter
  | storeCounter (loaded : UInt64)
  | unlock
deriving DecidableEq, Repr

/-- A thread with the iterations that are not over. -/
structure Worker where
  pc : WorkerPc
  remaining : Nat
deriving DecidableEq, Repr

/-- The thread is before an iteration and has none left. -/
def Worker.Finished (worker : Worker) : Prop := worker = ⟨.tryLock, 0⟩

def workerStep (g : SpinShared) : Worker → Option (Worker × SpinShared)
  | ⟨.tryLock, 0⟩ => none
  | ⟨.tryLock, k + 1⟩ =>
      let (locked, taken) := mcsSpinTryLock g.locked
      some (⟨if taken then .loadCounter else .poll, k + 1⟩, { g with locked := locked })
  | ⟨.poll, k⟩ => some (⟨if g.locked ≠ 0 then .poll else .tryLock, k⟩, g)
  | ⟨.loadCounter, k⟩ => some (⟨.storeCounter g.counter, k⟩, g)
  | ⟨.storeCounter loaded, k⟩ => some (⟨.unlock, k⟩, { g with counter := loaded + 1 })
  | ⟨.unlock, k⟩ => some (⟨.tryLock, k - 1⟩, { g with locked := mcsSpinUnlock })

/-- Any threads `ι`, each a worker. -/
def workerSystem (ι : Type u) [DecidableEq ι] :
    System (Config ι Worker SpinShared) (ι × Unit) Unit :=
  interleave fun _ worker g _ => (workerStep g worker).map fun next => (next.1, next.2, ())

/-- Thread `i` is to do `iterations i` iterations. -/
def workerStart {ι : Type u} (iterations : ι → Nat) (counter : UInt64) :
    Config ι Worker SpinShared :=
  ⟨fun i => ⟨.tryLock, iterations i⟩, ⟨0, counter⟩⟩

inductive SpinCall where
  | lock
  | tryLock
  | unlock
  | isLocked
deriving DecidableEq, Repr

/-- The next access of a caller.  `mcs_spin_lock` has two, the exchange of its outer loop
and the load of its inner one. -/
inductive SpinPc where
  | outside
  | lockExchange
  | lockPoll
  | tryLock
  | unlock
  | isLocked
deriving DecidableEq, Repr

def SpinCall.entry : SpinCall → SpinPc
  | .lock => .lockExchange
  | .tryLock => .tryLock
  | .unlock => .unlock
  | .isLocked => .isLocked

inductive SpinAction where
  | call (call : SpinCall)
  | advance
deriving DecidableEq, Repr

/-- The call that returned in a step, if one did, and the flag it returned, if it does
return one. -/
abbrev SpinEvent := Option (SpinCall × Option Bool)

def spinStep (pc : SpinPc) (locked : UInt32) : SpinAction → Option (SpinPc × UInt32 × SpinEvent)
  | .call call => if pc = .outside then some (call.entry, locked, none) else none
  | .advance =>
      match pc with
      | .outside => none
      | .lockExchange =>
          let (locked, taken) := mcsSpinTryLock locked
          if taken then some (.outside, locked, some (.lock, none))
          else some (.lockPoll, locked, none)
      | .lockPoll => some (if locked ≠ 0 then .lockPoll else .lockExchange, locked, none)
      | .tryLock =>
          let (locked, taken) := mcsSpinTryLock locked
          some (.outside, locked, some (.tryLock, some taken))
      | .unlock => some (.outside, mcsSpinUnlock, some (.unlock, none))
      | .isLocked => some (.outside, locked, some (.isLocked, some (mcsSpinIsLocked locked)))

/-- Any callers `ι`, calling in any order; nothing keeps one from an unlock without a
lock. -/
def spinSystem (ι : Type u) [DecidableEq ι] :
    System (Config ι SpinPc UInt32) (ι × SpinAction) SpinEvent :=
  interleave fun _ pc locked action => spinStep pc locked action

/-- The lock after `mcs_spin_init`. -/
def spinStart (ι : Type u) : Config ι SpinPc UInt32 := ⟨fun _ => .outside, 0⟩

end Mcsos.SyncModel

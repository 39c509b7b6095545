import Mcsos.MutexLinear

/-!
The functions that only look at the mutex.  The answer of `mcs_mutex_is_locked`, and
whether `mcs_mutex_owner` returns the id of its caller, are those of a mutex on which these
calls happen at single points too.  Of another client the owner word tells less: it names
nobody while the holder is between the two stores of a call.
-/

namespace Mcsos.MutexQueries

open Mcsos.AtomicObject
open Mcsos.CallSystem
open Mcsos.Interleaving
open Mcsos.MutexExclusion
open Mcsos.MutexLinear
open Mcsos.SyncModel

universe u

variable {ι : Type u}

inductive MutexOperation where
  | call (call : MutexCall)
  | query (query : MutexQuery)
deriving DecidableEq, Repr

inductive MutexAnswer where
  | code (result : McsSyncResult)
  | flag (answer : Bool)
deriving DecidableEq, Repr

/-- The mutex with its queries as an object.  Of the owner a client learns whether it is
the holder itself. -/
def queriedMutex [DecidableEq ι] : Meaning ι MutexOperation MutexAnswer (Option ι)
  | i, .call call, holder => (atomicMutex i call holder).map fun next => (next.1, .code next.2)
  | _, .query .isLocked, holder => some (holder, .flag holder.isSome)
  | i, .query .owner, holder => some (holder, .flag (holder = some i))

def visibleQuery (ownerId : ι → UInt64) :
    (ι × QueryAction) × QueryEvent → List (Event ι MutexOperation MutexAnswer)
  | ((i, .mutex action), .mutex event) => (visible ((i, action), event)).map (.map .call .code)
  | ((i, .ask query), .asked) => [.invoke i (.query query)]
  | ((i, .load), .isLocked locked) => [.respond i (.query .isLocked) (.flag locked)]
  | ((i, .load), .owner owner) => [.respond i (.query .owner) (.flag (owner = ownerId i))]
  | _ => []

/-- The clients without their queries. -/
def mutexConfig (c : Config ι QueryClient McsMutex) : Config ι MutexClient McsMutex :=
  ⟨fun i => (c.locals i).client, c.shared⟩

def asking (c : Config ι QueryClient McsMutex) (i : ι) :
    Option (Phase MutexOperation MutexAnswer) :=
  (c.locals i).query.map fun query => .called (.query query)

/-- The state of the object, from that of the mutex alone. -/
def withQueries (c : Config ι QueryClient McsMutex)
    (o : State ι MutexCall McsSyncResult (Option ι)) :
    State ι MutexOperation MutexAnswer (Option ι) :=
  o.extend .call .code (asking c)

structure Queried (ownerId : ι → UInt64) (c : Config ι QueryClient McsMutex)
    (o : State ι MutexCall McsSyncResult (Option ι)) : Prop where
  mutex : Represents ownerId (mutexConfig c) o
  outside : ∀ i, (c.locals i).query ≠ none → (c.locals i).client.pc = .outside
  owner : c.shared.owner = 0 ∨ ∃ i, c.shared.owner = ownerId i

variable {ownerId : ι → UInt64} {c : Config ι QueryClient McsMutex} {i : ι}
  {o : State ι MutexCall McsSyncResult (Option ι)}

theorem queried_queryStart (hnonzero : ∀ i, ownerId i ≠ 0) :
    Queried ownerId (queryStart ι) ⟨none, fun _ => .idle⟩ where
  mutex := represents_mutexStart hnonzero
  outside _ _ := rfl
  owner := .inl rfl

theorem Queried.idle (h : Queried ownerId c o) (hpc : (c.locals i).client.pc = .outside) :
    o.phase i = .idle := by
  rw [h.mutex.phase_self, phaseOf]
  simp only [mutexConfig, hpc]

theorem withQueries_asking {query : MutexQuery} (hquery : (c.locals i).query = some query) :
    (withQueries c o).phase i = .called (.query query) := by
  simp [withQueries, State.extend, asking, hquery]

theorem Queried.owner_holder (h : Queried ownerId c o) (hnonzero : ∀ i, ownerId i ≠ 0) :
    c.shared.owner = 0 ∧ (∀ j, (c.locals j).client.holding = true →
        (c.locals j).client.pc = .tryLock .storeOwner ∨
          (c.locals j).client.pc = .unlock .clearLocked) ∨
      ∃ j, c.shared.owner = ownerId j ∧ (c.locals j).client.holding = true := by
  rcases h.owner with hzero | ⟨j, hj⟩
  · refine .inl ⟨hzero, fun j hholding => ?_⟩
    by_contra hpc
    rw [not_or] at hpc
    have howner : c.shared.owner = ownerId j := (h.mutex.inv.owner_iff j).mpr ⟨hholding, hpc⟩
    exact hnonzero j (howner.symm.trans hzero)
  · exact .inr ⟨j, hj, ((h.mutex.inv.owner_iff j).mp hj).1⟩

theorem Queried.owner_self (h : Queried ownerId c o) (hpc : (c.locals i).client.pc = .outside) :
    c.shared.owner = ownerId i ↔ o.value = some i := by
  rw [h.mutex.holder i]
  refine h.mutex.owner_iff ?_ ?_
  · simp [mutexConfig, hpc]
  · simp [mutexConfig, hpc]

theorem Queried.isLocked_eq (h : Queried ownerId c o) :
    mcsMutexIsLocked c.shared = o.value.isSome := by
  have htaken : c.shared.locked ≠ 0 ↔ o.value.isSome = true := by
    refine h.mutex.inv.token.taken_iff.trans ?_
    rw [Option.isSome_iff_exists]
    exact exists_congr fun i => (h.mutex.holder i).symm
  rw [Bool.eq_iff_iff, ← htaken]
  exact bne_iff_ne

theorem resume_mutex {Pc : Type} (call : MutexCall) (inside : Pc → MutexPc) (holding : Bool)
    (next : McsMutex × Progress Pc) : (resume call inside holding next).2.1 = next.1 := by
  obtain ⟨mutex, pc | result⟩ := next
  · rfl
  · rfl

theorem mcsMutexTryLock_owner {id : UInt64} {mutex : McsMutex} {pc : TryLockPc} :
    (mcsMutexTryLock id mutex pc).1.owner = mutex.owner ∨
      (mcsMutexTryLock id mutex pc).1.owner = 0 ∨ (mcsMutexTryLock id mutex pc).1.owner = id := by
  cases pc with
  | storeOwner => exact .inr (.inr rfl)
  | _ =>
      rw [mcsMutexTryLock]
      split
      · exact .inl rfl
      · exact .inl rfl

theorem mcsMutexUnlock_owner {id : UInt64} {mutex : McsMutex} {pc : UnlockPc} :
    (mcsMutexUnlock id mutex pc).1.owner = mutex.owner ∨
      (mcsMutexUnlock id mutex pc).1.owner = 0 := by
  cases pc with
  | clearOwner => exact .inr rfl
  | clearLocked => exact .inl rfl
  | _ =>
      rw [mcsMutexUnlock]
      split
      · exact .inl rfl
      · exact .inl rfl

theorem mutexStep_owner {id : UInt64} {client : MutexClient} {mutex : McsMutex}
    {action : MutexAction} {next : MutexClient × McsMutex × MutexEvent}
    (hstep : mutexStep id client mutex action = some next) :
    next.2.1.owner = mutex.owner ∨ next.2.1.owner = 0 ∨ next.2.1.owner = id := by
  cases action with
  | call call =>
      cases call with
      | tryLock =>
          obtain ⟨-, hnext⟩ := Option.ite_none_right_eq_some.mp hstep
          cases hnext
          exact .inl rfl
      | unlock =>
          obtain ⟨-, hnext⟩ := Option.ite_none_right_eq_some.mp hstep
          cases hnext
          exact .inl rfl
  | advance =>
      cases hpc : client.pc with
      | outside => simp [mutexStep, hpc] at hstep
      | tryLock pc =>
          simp only [mutexStep, hpc, Option.some.injEq] at hstep
          subst hstep
          rw [resume_mutex]
          exact mcsMutexTryLock_owner
      | unlock pc =>
          simp only [mutexStep, hpc, Option.some.injEq] at hstep
          subst hstep
          rw [resume_mutex]
          exact mcsMutexUnlock_owner.imp_right .inl

theorem queryStep_load_owner {id : UInt64} {l l' : QueryClient} {mutex mutex' : McsMutex}
    {owner : UInt64} (hstep : queryStep id l mutex .load = some (l', mutex', .owner owner)) :
    owner = mutex.owner := by
  cases hquery : l.query with
  | none => simp [queryStep, hquery] at hstep
  | some query =>
      cases query with
      | isLocked => simp [queryStep, hquery] at hstep
      | owner =>
          simp only [queryStep, hquery, Option.some.injEq, Prod.mk.injEq,
            QueryEvent.owner.injEq] at hstep
          exact hstep.2.2.symm

theorem invoke_mem_visible {j : ι} {action : MutexAction} {event : MutexEvent} {op : MutexCall}
    (h : .invoke j op ∈ visible ((i, action), event)) : j = i := by
  cases action with
  | call call =>
      cases List.mem_singleton.mp h
      rfl
  | advance =>
      rcases event with _ | ⟨call, result⟩
      · cases h
      · cases List.mem_singleton.mp h

section Steps

variable [DecidableEq ι]

theorem mutexConfig_move (c : Config ι QueryClient McsMutex) (i : ι) (l : QueryClient)
    (mutex : McsMutex) :
    mutexConfig (c.move i l mutex) = (mutexConfig c).move i l.client mutex := by
  simp only [mutexConfig, Config.move, Config.mk.injEq, and_true]
  exact Function.comp_update QueryClient.client c.locals i l

theorem asking_move (c : Config ι QueryClient McsMutex) (i : ι) (l : QueryClient)
    (mutex : McsMutex) :
    asking (c.move i l mutex) =
      Function.update (asking c) i (l.query.map fun query => .called (.query query)) :=
  Function.comp_update (fun l : QueryClient =>
    l.query.map fun query => Phase.called (MutexOperation.query query)) c.locals i l

theorem Queried.call (h : Queried ownerId c o) (hinj : Function.Injective ownerId)
    (hnonzero : ∀ i, ownerId i ≠ 0) (hquery : (c.locals i).query = none) {action : MutexAction}
    {next : MutexClient × McsMutex × MutexEvent}
    (hstep : mutexStep (ownerId i) (c.locals i).client c.shared action = some next) :
    ∃ o', Execution queriedMutex (withQueries c o)
        ((visible ((i, action), next.2.2)).map (.map .call .code))
        (withQueries (c.move i ⟨next.1, none⟩ next.2.1) o') ∧
      Queried ownerId (c.move i ⟨next.1, none⟩ next.2.1) o' := by
  obtain ⟨o', hexecution, hrepresents⟩ := h.mutex.step (i := i) hinj hnonzero hstep
  refine ⟨o', ?_, ?_⟩
  · have hasking : asking (c.move i ⟨next.1, none⟩ next.2.1) = asking c := by
      rw [asking_move]
      refine Function.update_eq_iff.mpr ⟨?_, fun _ _ => rfl⟩
      rw [asking, hquery]
    rw [withQueries, withQueries, hasking]
    refine hexecution.extend (fun _ _ _ => rfl) fun j hj => ?_
    have hasks : (c.locals j).query ≠ none := by
      intro hnone
      exact hj (by rw [asking, hnone, Option.map_none])
    refine ⟨h.idle (h.outside j hasks), fun op hmem => hasks ?_⟩
    rw [invoke_mem_visible hmem, hquery]
  · refine ⟨?_, ?_, ?_⟩
    · rw [mutexConfig_move]
      exact hrepresents
    · refine forall_move (fun _ l => l.query ≠ none → l.client.pc = .outside) c ?_
        fun j _ => h.outside j
      exact fun hsome => absurd rfl hsome
    · rcases mutexStep_owner hstep with hsame | hzero | hself
      · rw [move_shared, hsame]
        exact h.owner
      · exact .inl hzero
      · exact .inr ⟨i, hself⟩

theorem Queried.query (h : Queried ownerId c o) (hpc : (c.locals i).client.pc = .outside)
    (query : Option MutexQuery) :
    Queried ownerId (c.move i ⟨(c.locals i).client, query⟩ c.shared) o where
  mutex := by
    rw [mutexConfig_move]
    have hsame : (mutexConfig c).move i (c.locals i).client c.shared = mutexConfig c := by
      rw [Config.move, mutexConfig, Function.update_eq_self_iff.mpr rfl]
    rw [hsame]
    exact h.mutex
  outside := by
    refine forall_move (fun _ l => l.query ≠ none → l.client.pc = .outside) c ?_
      fun j _ => h.outside j
    exact fun _ => hpc
  owner := h.owner

theorem Queried.withQueries_move (h : Queried ownerId c o)
    (hpc : (c.locals i).client.pc = .outside) (query : Option MutexQuery) :
    withQueries (c.move i ⟨(c.locals i).client, query⟩ c.shared) o =
      ⟨o.value, Function.update (withQueries c o).phase i
        ((query.map fun query => .called (.query query)).getD .idle)⟩ := by
  rw [withQueries, State.extend, asking_move, State.mk.injEq]
  refine ⟨rfl, ?_⟩
  funext j
  rcases eq_or_ne j i with rfl | hne
  · rw [Function.update_self, Function.update_self, h.idle hpc]
    rfl
  · rw [Function.update_of_ne hne, Function.update_of_ne hne]
    rfl

theorem Queried.ask (h : Queried ownerId c o) (hpc : (c.locals i).client.pc = .outside)
    (hquery : (c.locals i).query = none) (query : MutexQuery) :
    Execution queriedMutex (withQueries c o) [.invoke i (.query query)]
      (withQueries (c.move i ⟨(c.locals i).client, some query⟩ c.shared) o) := by
  have hidle : (withQueries c o).phase i = .idle := by
    simp [withQueries, State.extend, asking, hquery, h.idle hpc, Phase.map]
  rw [h.withQueries_move hpc]
  exact (Step.invoke (.query query) hidle).execution

theorem Queried.load (h : Queried ownerId c o) {query : MutexQuery}
    (hquery : (c.locals i).query = some query) {answer : Bool}
    (happly : queriedMutex i (.query query) o.value = some (o.value, .flag answer)) :
    ∃ o', Execution queriedMutex (withQueries c o) [.respond i (.query query) (.flag answer)]
        (withQueries (c.move i ⟨(c.locals i).client, none⟩ c.shared) o') ∧
      Queried ownerId (c.move i ⟨(c.locals i).client, none⟩ c.shared) o' := by
  have hpc := h.outside i (by simp [hquery])
  refine ⟨o, ?_, h.query hpc none⟩
  rw [h.withQueries_move hpc]
  exact .performAndRespond (withQueries_asking hquery) happly

theorem Queried.step (h : Queried ownerId c o) (hinj : Function.Injective ownerId)
    (hnonzero : ∀ i, ownerId i ≠ 0) {action : QueryAction}
    {next : QueryClient × McsMutex × QueryEvent}
    (hstep : queryStep (ownerId i) (c.locals i) c.shared action = some next) :
    ∃ o', Execution queriedMutex (withQueries c o) (visibleQuery ownerId ((i, action), next.2.2))
        (withQueries (c.move i next.1 next.2.1) o') ∧
      Queried ownerId (c.move i next.1 next.2.1) o' := by
  cases action with
  | mutex action =>
      obtain ⟨hquery, hnext⟩ := Option.ite_none_right_eq_some.mp hstep
      obtain ⟨inner, hinner, rfl⟩ := Option.map_eq_some_iff.mp hnext
      exact h.call hinj hnonzero hquery hinner
  | ask query =>
      obtain ⟨⟨hpc, hquery⟩, hnext⟩ := Option.ite_none_right_eq_some.mp hstep
      cases hnext
      exact ⟨o, h.ask hpc hquery query, h.query hpc (some query)⟩
  | load =>
      cases hquery : (c.locals i).query with
      | none => simp [queryStep, hquery] at hstep
      | some query =>
          cases query with
          | isLocked =>
              simp only [queryStep, hquery, Option.some.injEq] at hstep
              subst hstep
              refine h.load hquery ?_
              rw [h.isLocked_eq]
              rfl
          | owner =>
              simp only [queryStep, hquery, Option.some.injEq] at hstep
              subst hstep
              refine h.load hquery ?_
              have hself := h.owner_self (h.outside i (by simp [hquery]))
              rw [mcsMutexOwner, queriedMutex]
              simp only [hself]

theorem Queried.systemStep (h : Queried ownerId c o) (hinj : Function.Injective ownerId)
    (hnonzero : ∀ i, ownerId i ≠ 0) {call : ι × QueryAction}
    {c' : Config ι QueryClient McsMutex} {event : QueryEvent}
    (hstep : (querySystem ownerId).step c call = some (c', event)) :
    ∃ o', Execution queriedMutex (withQueries c o) (visibleQuery ownerId (call, event))
        (withQueries c' o') ∧
      Queried ownerId c' o' := by
  obtain ⟨i, action⟩ := call
  obtain ⟨l, mutex, hnext, rfl⟩ := interleave_step hstep
  exact h.step hinj hnonzero hnext

/-- Whatever the interleaving, the calls and returns that the clients see are those of a
mutex on which every call and query takes effect at once, where `mcs_mutex_is_locked`
tells whether there is a holder and `mcs_mutex_owner` whether the caller is the holder.
Any other owner that a query is told is the holder of that moment, or nobody, and nobody
only while there is no holder or the holder is between two stores. -/
theorem run_queriedMutex (hinj : Function.Injective ownerId) (hnonzero : ∀ i, ownerId i ≠ 0)
    {trace : List ((ι × QueryAction) × QueryEvent)}
    (hrun : Run (querySystem ownerId) (queryStart ι) trace c) :
    Linearizable queriedMutex none (trace.flatMap (visibleQuery ownerId)) ∧
      ∀ i c' owner, (querySystem ownerId).step c (i, .load) = some (c', .owner owner) →
        owner = 0 ∧ (∀ j, (c.locals j).client.holding = true →
            (c.locals j).client.pc = .tryLock .storeOwner ∨
              (c.locals j).client.pc = .unlock .clearLocked) ∨
          ∃ j, owner = ownerId j ∧ (c.locals j).client.holding = true := by
  have hstart := queried_queryStart (ι := ι) hnonzero
  refine ⟨?_, ?_⟩
  · refine linearizable_of_simulation (visibleQuery ownerId)
      (fun c o => ∃ inner, o = withQueries c inner ∧ Queried ownerId c inner) ?_
      ⟨_, rfl, hstart⟩ hrun
    rintro c o call c' event ⟨inner, rfl, h⟩ - hstep
    obtain ⟨inner', hexecution, h'⟩ := h.systemStep hinj hnonzero hstep
    exact ⟨_, hexecution, inner', rfl, h'⟩
  · intro i c' owner hload
    obtain ⟨o, h⟩ : ∃ o, Queried ownerId c o := by
      refine hrun.invariant (fun c => ∃ o, Queried ownerId c o) ?_ ⟨_, hstart⟩
      rintro c call c' event ⟨o, h⟩ - hstep
      obtain ⟨o', -, h'⟩ := h.systemStep hinj hnonzero hstep
      exact ⟨o', h'⟩
    obtain ⟨l, mutex, hnext, -⟩ := interleave_step hload
    rw [queryStep_load_owner hnext]
    exact h.owner_holder hnonzero

/-- The first client takes the mutex.  The second one sees it locked before the owner is
stored, and then asks for the owner. -/
def lookMoves : List (Bool × QueryAction) :=
  [(true, .mutex (.call .tryLock)), (true, .mutex .advance), (true, .mutex .advance),
    (false, .ask .isLocked), (false, .load), (false, .ask .owner), (false, .load),
    (true, .mutex .advance), (true, .ask .owner), (true, .load), (false, .ask .owner)]

def lookConfig : Config Bool QueryClient McsMutex :=
  lookMoves.foldl (fun c move => (((querySystem twoIds).step c move).map Prod.fst).getD c)
    (queryStart Bool)

theorem run_lookConfig :
    Run (querySystem twoIds) (queryStart Bool)
      (lookMoves.zip [.mutex none, .mutex none, .mutex none, .asked, .isLocked true, .asked,
        .owner 0, .mutex (some (.tryLock, .ok)), .asked, .owner 1, .asked]) lookConfig := by
  refine .cons trivial rfl (.cons trivial rfl (.cons trivial rfl (.cons trivial rfl ?_)))
  refine .cons trivial rfl (.cons trivial rfl (.cons trivial rfl (.cons trivial rfl ?_)))
  exact .cons trivial rfl (.cons trivial rfl (.cons trivial rfl (.nil _)))

theorem run_queriedMutex_lookConfig :
    Linearizable queriedMutex none
        ([.invoke true (.call .tryLock), .invoke false (.query .isLocked),
          .respond false (.query .isLocked) (.flag true), .invoke false (.query .owner),
          .respond false (.query .owner) (.flag false), .respond true (.call .tryLock) (.code .ok),
          .invoke true (.query .owner), .respond true (.query .owner) (.flag true),
          .invoke false (.query .owner)] : List (Event Bool MutexOperation MutexAnswer)) ∧
      ((1 : UInt64) = 0 ∧ (∀ j, (lookConfig.locals j).client.holding = true →
          (lookConfig.locals j).client.pc = .tryLock .storeOwner ∨
            (lookConfig.locals j).client.pc = .unlock .clearLocked) ∨
        ∃ j, 1 = twoIds j ∧ (lookConfig.locals j).client.holding = true) := by
  have h := run_queriedMutex twoIds_injective (by decide) run_lookConfig
  exact ⟨h.1, h.2 false _ 1 rfl⟩

end Steps

end Mcsos.MutexQueries

import Mcsos.VmmRefinement

/-!
The rights that the processor grants to a page, which depend on all four entries of its walk.
The entries above the last one are made by whichever call came first, so they must not take
away what a later call asks for.
-/

namespace Mcsos.VmmRights

open Mcsos.CallSystem
open Mcsos.WordArithmetic
open Mcsos.VmmModel
open Mcsos.VmmTables
open Mcsos.VmmRefinement

structure Rights where
  write : Bool
  user : Bool
  noExecute : Bool
deriving DecidableEq, Repr

def hasBit (bit entry : UInt64) : Bool := decide (entry &&& bit ≠ 0)

/-- A page may be written, or used in user mode, if all entries of its walk allow it, and not
executed if one of them forbids it. -/
def grantedRights (entries : List UInt64) : Rights where
  write := entries.all (hasBit vmmPteWritable)
  user := entries.all (hasBit vmmPteUser)
  noExecute := entries.any (hasBit vmmPteNoExecute)

/-- The rights that the flags of `vmm_map_page` ask for. -/
def requestedRights (flags : UInt64) : Rights where
  write := hasBit vmmPteWritable flags
  user := hasBit vmmPteUser flags
  noExecute := hasBit vmmPteNoExecute flags

section Walks

variable {τ σ : Type}

/-- The entries that the processor reads along a path, if all of them are present. -/
def walkEntries (space : VmmSpace τ σ) (mem : Memory τ) (frame : UInt64) :
    List (Fin 512) → Option (List UInt64)
  | [] => some []
  | i :: path =>
      let entry := entryOf space mem frame i
      if entry &&& vmmPtePresent = 0 then none
      else (walkEntries space mem (entry &&& vmmPteAddrMask) path).map (entry :: ·)

/-- The rights of a page, or none for an address without a page. -/
def effectiveRights (space : VmmSpace τ σ) (mem : Memory τ) (vaddr : UInt64) : Option Rights :=
  (walkEntries space mem space.rootPaddr (tablePath vaddr ++ [idxPt vaddr])).map grantedRights

variable {space : VmmSpace τ σ} {mem : Memory τ}

theorem walkEntries_cases (hplain : PlainTables space mem) (j : Fin 512)
    (rest : List (Fin 512)) :
    ∀ (path : List (Fin 512)) (frame : UInt64), path.length + rest.length ≤ 3 →
      frameAt space mem path = some frame →
      frameAt space mem (path ++ rest) = none ∧ walkEntries space mem frame (rest ++ [j]) = none ∨
        ∃ last entries, frameAt space mem (path ++ rest) = some last ∧
          entries.length = rest.length ∧ (∀ entry ∈ entries, ∃ paddr, entry = tableEntry paddr) ∧
          walkEntries space mem frame (rest ++ [j]) =
            if entryOf space mem last j &&& vmmPtePresent = 0 then none
            else some (entries ++ [entryOf space mem last j]) := by
  induction rest with
  | nil =>
      intro path frame _ hframe
      rw [List.append_nil]
      exact .inr ⟨frame, [], hframe, rfl, by simp, rfl⟩
  | cons i rest ih =>
      intro path frame hlen hframe
      rw [List.length_cons] at hlen
      have hnext : frameAt space mem (path ++ [i]) = nextFrame space mem frame i := by
        rw [frameAt_concat, hframe, Option.bind_some]
      rw [nextFrame] at hnext
      rw [List.append_cons, List.cons_append, walkEntries]
      by_cases hpresent : entryOf space mem frame i &&& vmmPtePresent = 0
      · rw [if_pos hpresent] at hnext
        exact .inl ⟨TableTree.descend_append_of_none hnext rest, if_pos hpresent⟩
      · rw [if_neg hpresent] at hnext
        have hlen' : (path ++ [i]).length + rest.length ≤ 3 := by
          rw [List.length_append, List.length_singleton]
          omega
        rw [if_neg hpresent]
        rcases ih (path ++ [i]) _ hlen' hnext with
          ⟨hnone, hwalk⟩ | ⟨last, entries, hlast, hlength, hmade, hwalk⟩
        · exact .inl ⟨hnone, by rw [hwalk]; rfl⟩
        · refine .inr ⟨last, entryOf space mem frame i :: entries, hlast, by simp [hlength], ?_, ?_⟩
          · intro entry hentry
            rcases List.mem_cons.mp hentry with rfl | hentry
            · exact hplain path frame i (by omega) hframe hpresent
            · exact hmade entry hentry
          · rw [hwalk]
            split <;> rfl

end Walks

theorem tableEntry_writable (paddr : UInt64) : hasBit vmmPteWritable (tableEntry paddr) = true := by
  rw [hasBit, decide_eq_true_eq, tableEntry, or_and_distrib, or_and_distrib, UInt64.and_assoc,
    show vmmPteAddrMask &&& vmmPteWritable = 0 from rfl, UInt64.and_zero]
  decide

theorem tableEntry_user (paddr : UInt64) : hasBit vmmPteUser (tableEntry paddr) = false := by
  rw [hasBit, decide_eq_false_iff_not, not_not, tableEntry, or_and_distrib, or_and_distrib,
    UInt64.and_assoc, show vmmPteAddrMask &&& vmmPteUser = 0 from rfl, UInt64.and_zero]
  rfl

theorem tableEntry_noExecute (paddr : UInt64) :
    hasBit vmmPteNoExecute (tableEntry paddr) = false := by
  rw [hasBit, decide_eq_false_iff_not, not_not, tableEntry, or_and_distrib, or_and_distrib,
    UInt64.and_assoc, show vmmPteAddrMask &&& vmmPteNoExecute = 0 from rfl, UInt64.and_zero]
  rfl

/-- The flags that an entry for a page has. -/
def entryFlags (flags : UInt64) : UInt64 := vmmPtePresent ||| (flags &&& allowedFlags)

theorem hasBit_of_flags {entry flags bit : UInt64}
    (hflags : entry &&& ~~~vmmPteAddrMask = entryFlags flags)
    (hhigh : ~~~vmmPteAddrMask &&& bit = bit)
    (hother : vmmPtePresent &&& bit = 0) (hallowed : allowedFlags &&& bit = bit) :
    hasBit bit entry = hasBit bit flags := by
  have hbits : entry &&& bit = flags &&& bit := by
    calc
      entry &&& bit = (entry &&& ~~~vmmPteAddrMask) &&& bit := by rw [UInt64.and_assoc, hhigh]
      _ = (vmmPtePresent &&& bit) ||| (flags &&& (allowedFlags &&& bit)) := by
        rw [hflags, entryFlags, or_and_distrib, UInt64.and_assoc]
      _ = flags &&& bit := by rw [hother, hallowed, UInt64.zero_or]
  rw [hasBit, hasBit, hbits]

theorem grantedRights_page {entries : List UInt64} {entry flags : UInt64}
    (hmade : ∀ entry ∈ entries, ∃ paddr, entry = tableEntry paddr) (hne : entries ≠ [])
    (hflags : entry &&& ~~~vmmPteAddrMask = entryFlags flags) :
    grantedRights (entries ++ [entry]) =
      { requestedRights flags with user := false } := by
  have hwrite : entries.all (hasBit vmmPteWritable) = true := by
    rw [List.all_eq_true]
    intro entry hentry
    obtain ⟨paddr, rfl⟩ := hmade entry hentry
    exact tableEntry_writable paddr
  have huser : entries.all (hasBit vmmPteUser) = false := by
    obtain ⟨first, rest, rfl⟩ := List.exists_cons_of_ne_nil hne
    obtain ⟨paddr, rfl⟩ := hmade first List.mem_cons_self
    rw [List.all_cons, tableEntry_user, Bool.false_and]
  have hnoExecute : entries.any (hasBit vmmPteNoExecute) = false := by
    rw [List.any_eq_false]
    intro entry hentry
    obtain ⟨paddr, rfl⟩ := hmade entry hentry
    rw [tableEntry_noExecute]
    decide
  rw [grantedRights, List.all_append, List.all_append, List.any_append, hwrite, huser, hnoExecute,
    requestedRights, List.all_cons, List.all_nil, List.any_cons, List.any_nil, Bool.true_and,
    Bool.and_true, Bool.false_and, Bool.false_or, Bool.or_false,
    hasBit_of_flags hflags rfl rfl rfl, hasBit_of_flags hflags rfl rfl rfl]

/-- The flags with which the pages are mapped, as a call and its result change them. -/
def recordFlags (asked : PageAddress → Option UInt64) :
    VmmCall × VmmResult → PageAddress → Option UInt64
  | (.mapPage vaddr _ flags, result) =>
      if h : IsPage vaddr ∧ result = .done then Function.update asked ⟨vaddr, h.1⟩ (some flags)
      else asked
  | (.unmapPage vaddr, result) =>
      if h : IsPage vaddr ∧ result = .done then Function.update asked ⟨vaddr, h.1⟩ none
      else asked
  | (.queryPage _ _, _) => asked

/-- The flags with which the pages are mapped after a run from a zero root. -/
def flagsAfter (trace : List (VmmCall × VmmResult)) : PageAddress → Option UInt64 :=
  trace.foldl recordFlags fun _ => none

variable {τ σ : Type} {space : VmmSpace τ σ}

/-- The tables hold pages with the flags that have been asked for. -/
structure Grants (space : VmmSpace τ σ) (mem : Memory τ) (asked : PageAddress → Option UInt64) :
    Prop where
  inv : TablesInv space mem
  plain : PlainTables space mem
  flags : ∀ vaddr : PageAddress,
    (pageAt space mem vaddr).map Prod.snd = (asked vaddr).map entryFlags

theorem Grants.effectiveRights {mem : Memory τ} {asked : PageAddress → Option UInt64}
    (h : Grants space mem asked) (vaddr : PageAddress) :
    VmmRights.effectiveRights space mem vaddr =
      (asked vaddr).map fun flags => { requestedRights flags with user := false } := by
  have hflags := h.flags vaddr
  rw [pageAt] at hflags
  rw [VmmRights.effectiveRights]
  rcases walkEntries_cases h.plain (idxPt vaddr) (tablePath vaddr) [] space.rootPaddr
      (Nat.le_refl 3) rfl with
    ⟨hnone, hwalk⟩ | ⟨last, entries, hlast, hlength, hmade, hwalk⟩
  · rw [List.nil_append] at hnone
    rw [hnone] at hflags
    rw [hwalk, Option.map_eq_none_iff.mp hflags.symm]
    rfl
  · rw [List.nil_append] at hlast
    rw [hlast, Option.bind_some, pageOf] at hflags
    rw [hwalk]
    split at hflags
    case isTrue habsent =>
      rw [if_pos habsent, Option.map_eq_none_iff.mp hflags.symm]
      rfl
    case isFalse hpresent =>
      obtain ⟨flags, hasked, heq⟩ := Option.map_eq_some_iff.mp hflags.symm
      have hne : entries ≠ [] := by
        rintro rfl
        cases hlength
      rw [if_neg hpresent, hasked, Option.map_some, Option.map_some,
        grantedRights_page hmade hne heq.symm]

section Pages

variable {mem mem' : Memory τ} {asked : PageAddress → Option UInt64}

theorem Grants.holds (h : Grants space mem asked) :
    Holds space mem fun vaddr => pageAt space mem vaddr :=
  ⟨h.inv, fun _ => rfl⟩

theorem Grants.of_same (h : Grants space mem asked)
    (hplain : PlainTables space mem')
    (hholds : Holds space mem' fun vaddr => pageAt space mem vaddr) :
    Grants space mem' asked := by
  refine ⟨hholds.inv, hplain, fun vaddr => ?_⟩
  rw [← hholds.page]
  exact h.flags vaddr

theorem Grants.of_update (h : Grants space mem asked)
    (hplain : PlainTables space mem') {vaddr : PageAddress} {page : Option (UInt64 × UInt64)}
    {flags : Option UInt64} (hpage : page.map Prod.snd = flags.map entryFlags)
    (hholds : Holds space mem'
      (Function.update (fun vaddr : PageAddress => pageAt space mem vaddr) vaddr page)) :
    Grants space mem' (Function.update asked vaddr flags) := by
  refine ⟨hholds.inv, hplain, fun vaddr' => ?_⟩
  rw [← hholds.page]
  rcases eq_or_ne vaddr' vaddr with rfl | hne
  · rw [Function.update_self, Function.update_self]
    exact hpage
  · rw [Function.update_of_ne hne, Function.update_of_ne hne]
    exact h.flags vaddr'

end Pages

section Calls

variable [DecidableEq τ] {m : Machine τ σ} {asked : PageAddress → Option UInt64}

theorem failed_ne_done (rc : VmmError) : VmmResult.failed rc ≠ .done := by
  cases rc <;> decide

theorem plainTables_mapPage (hinv : TablesInv space m.mem) (hplain : PlainTables space m.mem)
    (hdistinct : DistinctTables space) {vaddr paddr : UInt64} (hpage : IsPage vaddr)
    (hpaddr : vmmIsAligned4k paddr = true) (flags : UInt64)
    (hcontract : ∀ event ∈ (vmmMapPage (some space) m vaddr paddr flags).1.log,
      FrameContract space event) :
    PlainTables space (vmmMapPage (some space) m vaddr paddr flags).1.mem := by
  obtain ⟨m', hinv', -, hkept, ⟨hnone, hmap⟩ | ⟨frame, pt, hframe, htable, hmap⟩⟩ :=
    vmmMapPage_cases hinv hdistinct hpage hpaddr flags hcontract
  · rw [hmap]
    exact hkept hplain
  · rw [hmap, mapEntry]
    split
    · exact hkept hplain
    · exact (hkept hplain).setPage hinv' hdistinct rfl hframe htable _ _

theorem plainTables_unmapPage (hinv : TablesInv space m.mem) (hplain : PlainTables space m.mem)
    (hdistinct : DistinctTables space) {vaddr : UInt64} (hpage : IsPage vaddr) :
    PlainTables space (vmmUnmapPage (some space) m vaddr).1.mem := by
  rw [vmmUnmapPage, hpage.1, hpage.2, if_neg (by decide)]
  rcases findPageTable_cases hinv vaddr with
    ⟨hnone, hfind⟩ | ⟨frame, table, hframe, htable, hfind⟩
  · rw [hfind]
    exact hplain
  · rw [hfind]
    dsimp only
    split
    · exact hplain
    · exact hplain.setPage hinv hdistinct rfl hframe htable _ _

theorem vmmStep_mapPage (vaddr paddr flags : UInt64) :
    vmmStep space m (.mapPage vaddr paddr flags) =
      ((vmmMapPage (some space) m vaddr paddr flags).1,
        .of (vmmMapPage (some space) m vaddr paddr flags).2) := rfl

theorem vmmStep_unmapPage (vaddr : UInt64) :
    vmmStep space m (.unmapPage vaddr) =
      ((vmmUnmapPage (some space) m vaddr).1, .of (vmmUnmapPage (some space) m vaddr).2) := rfl

theorem Grants.mapPage (h : Grants space m.mem asked) (hdistinct : DistinctTables space)
    {vaddr paddr flags : UInt64}
    (hcontract : ∀ event ∈ (vmmStep space m (.mapPage vaddr paddr flags)).1.log,
      FrameContract space event) :
    Grants space (vmmStep space m (.mapPage vaddr paddr flags)).1.mem
      (recordFlags asked (.mapPage vaddr paddr flags,
        (vmmStep space m (.mapPage vaddr paddr flags)).2)) := by
  by_cases hvalid : IsPage vaddr ∧ vmmIsAligned4k paddr = true
  · have hplain := plainTables_mapPage h.inv h.plain hdistinct hvalid.1 hvalid.2 flags hcontract
    have hspec := h.holds.mapPage hdistinct ⟨vaddr, hvalid.1⟩ hvalid.2 flags hcontract
    rw [vmmStep_mapPage, recordFlags]
    rcases hspec with ⟨-, hresult, hholds⟩ | ⟨-, ⟨hresult, hholds⟩ | ⟨hresult, hholds⟩⟩
    · rw [hresult, dif_neg fun hdone => failed_ne_done _ hdone.2]
      exact h.of_same hplain hholds
    · rw [hresult, dif_pos ⟨hvalid.1, rfl⟩]
      refine h.of_update hplain ?_ hholds
      rw [pageOf, if_neg (pageEntry_present paddr flags), pageEntry_flags]
      rfl
    · rw [hresult, dif_neg fun hdone => failed_ne_done _ hdone.2]
      exact h.of_same hplain hholds
  · rw [vmmStep_mapPage, recordFlags, vmmMapPage_invalid hvalid]
    rw [dif_neg fun hdone => failed_ne_done _ hdone.2]
    exact h

theorem Grants.unmapPage (h : Grants space m.mem asked) (hdistinct : DistinctTables space)
    (vaddr : UInt64) :
    Grants space (vmmStep space m (.unmapPage vaddr)).1.mem
      (recordFlags asked (.unmapPage vaddr, (vmmStep space m (.unmapPage vaddr)).2)) := by
  by_cases hpage : IsPage vaddr
  · have hplain := plainTables_unmapPage h.inv h.plain hdistinct hpage
    have hspec := h.holds.unmapPage hdistinct ⟨vaddr, hpage⟩
    rw [vmmStep_unmapPage, recordFlags]
    rcases hspec with ⟨-, hresult, hholds⟩ | ⟨-, hresult, hholds⟩
    · rw [hresult, dif_pos ⟨hpage, rfl⟩]
      exact h.of_update hplain rfl hholds
    · rw [hresult, dif_neg fun hdone => failed_ne_done _ hdone.2]
      exact h.of_same hplain hholds
  · rw [vmmStep_unmapPage, recordFlags, vmmUnmapPage_invalid hpage]
    rw [dif_neg fun hdone => hpage hdone.1]
    exact h

theorem Grants.step (h : Grants space m.mem asked) (hdistinct : DistinctTables space)
    {call : VmmCall}
    (hcontract : ∀ event ∈ (vmmStep space m call).1.log, FrameContract space event) :
    Grants space (vmmStep space m call).1.mem
      (recordFlags asked (call, (vmmStep space m call).2)) := by
  cases call with
  | mapPage vaddr paddr flags => exact h.mapPage hdistinct hcontract
  | unmapPage vaddr => exact h.unmapPage hdistinct vaddr
  | queryPage vaddr out =>
      rw [recordFlags, vmmStep]
      split <;> exact h

end Calls

/-- The calls, with any addresses and flags, as long as the allocator keeps its contract. -/
def anyPaddrSystem [DecidableEq τ] (space : VmmSpace τ σ) :
    System (Machine τ σ) VmmCall VmmResult where
  allowed m call := ∀ event ∈ (vmmStep space m call).1.log, FrameContract space event
  step m call := some (vmmStep space m call)

section Runs

variable [DecidableEq τ] {m m' : Machine τ σ} {trace : List (VmmCall × VmmResult)}

theorem Grants.run {asked : PageAddress → Option UInt64} (h : Grants space m.mem asked)
    (hdistinct : DistinctTables space) (hrun : Run (anyPaddrSystem space) m trace m') :
    Grants space m'.mem (trace.foldl recordFlags asked) := by
  induction hrun generalizing asked with
  | nil m => exact h
  | cons hallowed hstep _ ih =>
      have hnext := h.step hdistinct hallowed
      rw [Option.some.inj hstep] at hnext
      exact ih hnext

theorem grants_run {rootPaddr : UInt64}
    {allocFrame : Option (σ → Memory τ → σ × Memory τ × UInt64)}
    {freeFrame : Option (σ → UInt64 → σ)} {physToVirt : UInt64 → Option τ}
    (hinit : vmmSpaceInit true rootPaddr allocFrame freeFrame (some physToVirt) = .ok space)
    (hdistinct : ∀ frame frame' table, vmmIsAligned4k frame = true → vmmIsAligned4k frame' = true →
      physToVirt frame = some table → physToVirt frame' = some table → frame = frame')
    {ctx : σ} {mem : Memory τ} {root : τ} (hroot : physToVirt rootPaddr = some root)
    (hzero : mem root = vmmZeroPage)
    (hrun : Run (anyPaddrSystem space) ⟨ctx, mem, []⟩ trace m) :
    DistinctTables space ∧ Grants space m.mem (flagsAfter trace) := by
  obtain ⟨hdistinct', htable, hempty⟩ := zeroRoot hinit hdistinct hroot hzero
  have hstart : Grants space mem fun _ => none := by
    refine ⟨tablesInv_zero ⟨root, htable⟩ hempty, plainTables_zero hempty, fun vaddr => ?_⟩
    rw [pageAt_zero hempty]
    rfl
  exact ⟨hdistinct', hstart.run hdistinct' hrun⟩

/-- From a zero root on, the pages that are mapped are those that have rights, and the rights
are the requested ones exactly for pages that are not meant for user mode. -/
theorem run_rights {rootPaddr : UInt64}
    {allocFrame : Option (σ → Memory τ → σ × Memory τ × UInt64)}
    {freeFrame : Option (σ → UInt64 → σ)} {physToVirt : UInt64 → Option τ}
    (hinit : vmmSpaceInit true rootPaddr allocFrame freeFrame (some physToVirt) = .ok space)
    (hdistinct : ∀ frame frame' table, vmmIsAligned4k frame = true → vmmIsAligned4k frame' = true →
      physToVirt frame = some table → physToVirt frame' = some table → frame = frame')
    {ctx : σ} {mem : Memory τ} {root : τ} (hroot : physToVirt rootPaddr = some root)
    (hzero : mem root = vmmZeroPage)
    (hrun : Run (anyPaddrSystem space) ⟨ctx, mem, []⟩ trace m) (vaddr : PageAddress) :
    (effectiveRights space m.mem vaddr).isSome = (flagsAfter trace vaddr).isSome ∧
      ∀ flags, flagsAfter trace vaddr = some flags →
        (effectiveRights space m.mem vaddr = some (requestedRights flags) ↔
          flags &&& vmmPteUser = 0) := by
  obtain ⟨-, hgrants⟩ := grants_run hinit hdistinct hroot hzero hrun
  have hrights := hgrants.effectiveRights vaddr
  change _ = Option.map _ (flagsAfter trace vaddr) at hrights
  constructor
  · rw [hrights, Option.isSome_map]
  · intro flags hflags
    rw [hrights, hflags, Option.map_some, Option.some.injEq, requestedRights, Rights.mk.injEq]
    constructor
    · rintro ⟨-, huser, -⟩
      rw [eq_comm, hasBit, decide_eq_false_iff_not, not_not] at huser
      exact huser
    · intro hnone
      refine ⟨rfl, ?_, rfl⟩
      rw [eq_comm, hasBit, decide_eq_false_iff_not, not_not]
      exact hnone

end Runs

/-- The state after a page was mapped with some flags. -/
def mappedHost (flags : UInt64) : Machine UInt64 UInt64 :=
  (vmmStep hostSpace hostStart (.mapPage hostVaddr 0x300000 flags)).1

theorem run_mappedHost (flags : UInt64) :
    Run (anyPaddrSystem hostSpace) hostStart [(.mapPage hostVaddr 0x300000 flags, .done)]
      (mappedHost flags) := by
  have hallowed : (anyPaddrSystem hostSpace).allowed hostStart
      (.mapPage hostVaddr 0x300000 flags) := contract_hostLog
  exact .cons hallowed rfl (.nil _)

theorem run_rights_mappedHost :
    effectiveRights hostSpace (mappedHost vmmPteNoExecute).mem hostVaddr =
      some (requestedRights vmmPteNoExecute) := by
  have hinit : vmmSpaceInit true 0x1000 (some hostAlloc) none (some hostPhysToVirt) =
      .ok hostSpace := rfl
  have hpage : IsPage hostVaddr := by decide
  have hrights := run_rights hinit hostPhysToVirt_distinct rfl rfl
    (run_mappedHost vmmPteNoExecute) ⟨hostVaddr, hpage⟩
  exact (hrights.2 vmmPteNoExecute rfl).mpr (by decide)

/-- A page that was mapped for user mode cannot be used there. -/
theorem not_granted_user :
    Run (anyPaddrSystem hostSpace) hostStart [(.mapPage hostVaddr 0x300000 vmmPteUser, .done)]
        (mappedHost vmmPteUser) ∧
      (requestedRights vmmPteUser).user = true ∧
      (effectiveRights hostSpace (mappedHost vmmPteUser).mem hostVaddr).map Rights.user =
        some false :=
  ⟨run_mappedHost vmmPteUser, by decide, by decide⟩

end Mcsos.VmmRights

import Mcsos.VmmRights

/-!
The translations that the processor keeps.  It may read the tables of an address at any
time and keep what it finds, and it drops a translation when it likes or when it executes
`invlpg`, which `vmm_unmap_page` does behind its store; the store itself does not reach
what the processor has kept.
-/

namespace Mcsos.VmmTlb

open Mcsos.CallSystem
open Mcsos.VmmModel
open Mcsos.VmmRefinement
open Mcsos.VmmRights
open Mcsos.VmmTables
open Mcsos.WordArithmetic

/-- The frame and the flags of the last entry of a walk, and the rights that the whole walk
grants. -/
structure Translation where
  page : UInt64 × UInt64
  rights : Rights
deriving DecidableEq, Repr

variable {τ σ : Type}

/-- What the processor finds for an address in the tables; it keeps no translation for an
address without a page. -/
def translate (space : VmmSpace τ σ) (mem : Memory τ) (vaddr : PageAddress) :
    Option Translation :=
  (pageAt space mem vaddr).bind fun page =>
    (effectiveRights space mem vaddr).map fun rights => ⟨page, rights⟩

/-- The machine with the translations of the processor.  While the address of a page is
`pending`, its entry has been cleared and `invlpg` is the next instruction. -/
structure Cpu (τ σ : Type) where
  machine : Machine τ σ
  tlb : PageAddress → Option Translation
  pending : Option PageAddress

/-- The kernel makes a call or, in the middle of one, executes `invlpg`; the processor
reads the tables of an address, or forgets a translation. -/
inductive CpuAction where
  | call (call : VmmCall)
  | invlpg
  | walk (vaddr : PageAddress)
  | evict (vaddr : PageAddress)

/-- The page for which a call of `vmm_unmap_page` reaches `vmm_invalidate_page`. -/
def invalidated : VmmCall → VmmResult → Option PageAddress
  | .unmapPage vaddr, result =>
      if h : result = .done ∧ IsPage vaddr then some ⟨vaddr, h.2⟩ else none
  | _, _ => none

def cpuStep [DecidableEq τ] (space : VmmSpace τ σ) (cpu : Cpu τ σ) :
    CpuAction → Option (Cpu τ σ × Option VmmResult)
  | .call call =>
      let (machine, result) := vmmStep space cpu.machine call
      some ({ cpu with machine := machine, pending := invalidated call result }, some result)
  | .invlpg =>
      cpu.pending.map fun vaddr =>
        ({ cpu with tlb := Function.update cpu.tlb vaddr none, pending := none }, none)
  | .walk vaddr =>
      let found := (translate space cpu.machine.mem vaddr).or (cpu.tlb vaddr)
      some ({ cpu with tlb := Function.update cpu.tlb vaddr found }, none)
  | .evict vaddr => some ({ cpu with tlb := Function.update cpu.tlb vaddr none }, none)

/-- The next call comes when the last one is over, and the allocator keeps its contract. -/
def cpuSystem [DecidableEq τ] (space : VmmSpace τ σ) :
    System (Cpu τ σ) CpuAction (Option VmmResult) where
  allowed cpu
    | .call call => cpu.pending = none ∧ (anyPaddrSystem space).allowed cpu.machine call
    | _ => True
  step cpu action := cpuStep space cpu action

variable {space : VmmSpace τ σ} {mem : Memory τ} {m : Machine τ σ}
  {asked : PageAddress → Option UInt64}

theorem entryFlags_high (flags : UInt64) :
    entryFlags flags &&& ~~~vmmPteAddrMask = entryFlags flags := by
  rw [entryFlags, or_and_distrib, UInt64.and_assoc]
  rfl

theorem translate_eq (h : Grants space mem asked) (vaddr : PageAddress) :
    translate space mem vaddr = (pageAt space mem vaddr).map fun page =>
      ⟨page, { requestedRights page.2 with user := false }⟩ := by
  have hflags := h.flags vaddr
  rw [translate, h.effectiveRights vaddr]
  rcases hpage : pageAt space mem vaddr with _ | page
  · rfl
  · rw [hpage, Option.map_some] at hflags
    obtain ⟨flags, hasked, heq⟩ := Option.map_eq_some_iff.mp hflags.symm
    have hwrite : hasBit vmmPteWritable page.2 = hasBit vmmPteWritable flags := by
      rw [← heq]
      exact hasBit_of_flags (entryFlags_high flags) rfl rfl rfl
    have hnoExecute : hasBit vmmPteNoExecute page.2 = hasBit vmmPteNoExecute flags := by
      rw [← heq]
      exact hasBit_of_flags (entryFlags_high flags) rfl rfl rfl
    simp only [hasked, Option.bind_some, Option.map_some, requestedRights, hwrite, hnoExecute]

/-- Whatever the processor keeps is what it would find in the tables now, except for the page
that is being unmapped. -/
structure Coherent (space : VmmSpace τ σ) (cpu : Cpu τ σ) : Prop where
  grants : ∃ asked, Grants space cpu.machine.mem asked
  fresh : ∀ vaddr translation, cpu.tlb vaddr = some translation →
    translate space cpu.machine.mem vaddr = some translation ∨ cpu.pending = some vaddr

variable {cpu cpu' : Cpu τ σ}

theorem Coherent.keep (h : Coherent space cpu) (vaddr : PageAddress) (kept : Option Translation)
    (hkept : ∀ translation, kept = some translation →
      translate space cpu.machine.mem vaddr = some translation ∨ cpu.pending = some vaddr) :
    Coherent space { cpu with tlb := Function.update cpu.tlb vaddr kept } := by
  refine ⟨h.grants, fun other translation hother => ?_⟩
  dsimp only at hother
  rcases eq_or_ne other vaddr with rfl | hne
  · rw [Function.update_self] at hother
    exact hkept translation hother
  · rw [Function.update_of_ne hne] at hother
    exact h.fresh other translation hother

theorem Coherent.invlpg (h : Coherent space cpu) {vaddr : PageAddress}
    (hpending : cpu.pending = some vaddr) :
    Coherent space { cpu with tlb := Function.update cpu.tlb vaddr none, pending := none } := by
  refine ⟨h.grants, fun other translation hother => ?_⟩
  dsimp only at hother
  rcases eq_or_ne other vaddr with rfl | hne
  · rw [Function.update_self] at hother
    cases hother
  · rw [Function.update_of_ne hne] at hother
    rcases h.fresh other translation hother with hfound | hstale
    · exact .inl hfound
    · rw [hpending] at hstale
      exact absurd (Option.some.inj hstale).symm hne

variable [DecidableEq τ]

theorem pageAt_step (h : Holds space m.mem fun vaddr => pageAt space m.mem vaddr)
    (hdistinct : DistinctTables space) {call : VmmCall}
    (hcontract : (anyPaddrSystem space).allowed m call) {vaddr : PageAddress}
    (hmapped : (pageAt space m.mem vaddr).isSome = true) :
    pageAt space (vmmStep space m call).1.mem vaddr = pageAt space m.mem vaddr ∨
      invalidated call (vmmStep space m call).2 = some vaddr := by
  cases call with
  | mapPage target paddr flags =>
      left
      by_cases hvalid : IsPage target ∧ vmmIsAligned4k paddr = true
      · rcases h.mapPage hdistinct ⟨target, hvalid.1⟩ hvalid.2 flags hcontract with
          ⟨-, -, hholds⟩ | ⟨hfree, ⟨-, hholds⟩ | ⟨-, hholds⟩⟩
        · exact (hholds.page vaddr).symm
        · have hother : vaddr ≠ ⟨target, hvalid.1⟩ := by
            rintro rfl
            rw [hfree] at hmapped
            cases hmapped
          have hkept := hholds.page vaddr
          rw [Function.update_of_ne hother] at hkept
          exact hkept.symm
        · exact (hholds.page vaddr).symm
      · rw [vmmStep_mapPage, vmmMapPage_invalid hvalid]
  | unmapPage target =>
      by_cases hpage : IsPage target
      · rcases h.unmapPage hdistinct ⟨target, hpage⟩ with ⟨-, hresult, hholds⟩ | ⟨-, -, hholds⟩
        · rcases eq_or_ne vaddr ⟨target, hpage⟩ with rfl | hother
          · right
            rw [vmmStep_unmapPage, hresult, invalidated]
            exact dif_pos ⟨rfl, hpage⟩
          · left
            have hkept := hholds.page vaddr
            rw [Function.update_of_ne hother] at hkept
            exact hkept.symm
        · exact .inl (hholds.page vaddr).symm
      · left
        rw [vmmStep_unmapPage, vmmUnmapPage_invalid hpage]
  | queryPage target out =>
      left
      rw [vmmStep]
      split <;> rfl

theorem Coherent.call (h : Coherent space cpu) (hdistinct : DistinctTables space)
    {call : VmmCall} (hpending : cpu.pending = none)
    (hcontract : (anyPaddrSystem space).allowed cpu.machine call) :
    Coherent space
      { cpu with
        machine := (vmmStep space cpu.machine call).1
        pending := invalidated call (vmmStep space cpu.machine call).2 } := by
  obtain ⟨asked, hgrants⟩ := h.grants
  have hgrants' := hgrants.step hdistinct hcontract
  refine ⟨⟨_, hgrants'⟩, fun vaddr translation hkept => ?_⟩
  have hfound : translate space cpu.machine.mem vaddr = some translation := by
    rcases h.fresh vaddr translation hkept with hfound | hstale
    · exact hfound
    · rw [hpending] at hstale
      cases hstale
  have hmapped : (pageAt space cpu.machine.mem vaddr).isSome = true := by
    rw [translate_eq hgrants] at hfound
    obtain ⟨page, hpage, -⟩ := Option.map_eq_some_iff.mp hfound
    rw [hpage]
    rfl
  rcases pageAt_step hgrants.holds hdistinct hcontract hmapped with hsame | hunmapped
  · left
    rw [translate_eq hgrants] at hfound
    rw [translate_eq hgrants', hsame, hfound]
  · exact .inr hunmapped

theorem Coherent.step (h : Coherent space cpu) (hdistinct : DistinctTables space)
    {action : CpuAction} {result : Option VmmResult}
    (hallowed : (cpuSystem space).allowed cpu action)
    (hstep : (cpuSystem space).step cpu action = some (cpu', result)) :
    Coherent space cpu' := by
  cases action with
  | call call =>
      cases hstep
      exact h.call hdistinct hallowed.1 hallowed.2
  | invlpg =>
      obtain ⟨vaddr, hpending, heq⟩ := Option.map_eq_some_iff.mp hstep
      cases heq
      exact h.invlpg hpending
  | walk vaddr =>
      cases hstep
      refine h.keep vaddr _ fun translation hkept => ?_
      rcases Option.or_eq_some_iff.mp hkept with hfound | ⟨-, hold⟩
      · exact .inl hfound
      · exact h.fresh vaddr translation hold
  | evict vaddr =>
      cases hstep
      refine h.keep vaddr none fun translation hkept => ?_
      cases hkept

end Mcsos.VmmTlb

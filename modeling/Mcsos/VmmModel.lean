import Mathlib.Logic.Function.Basic

/-!
The four-level page tables of `src/vmm.c`.  A pointer to a table is a value of a type
`τ`, which is the index of the table in memory; a null pointer is `none`.  The callbacks
are functions of what stands behind `ctx`, of type `σ`.
-/

namespace Mcsos.VmmModel

def vmmInvalidPhys : UInt64 := 0xffffffffffffffff

def vmmPtePresent : UInt64 := 0x1

def vmmPteWritable : UInt64 := 0x2

def vmmPteUser : UInt64 := 0x4

def vmmPteWriteThrough : UInt64 := 0x8

def vmmPteCacheDisable : UInt64 := 0x10

def vmmPteHuge : UInt64 := 0x80

def vmmPteGlobal : UInt64 := 0x100

def vmmPteNoExecute : UInt64 := 0x8000000000000000

def vmmPteAddrMask : UInt64 := 0x000ffffffffff000

/-- The flags that `vmm_map_page` takes over from its caller. -/
def allowedFlags : UInt64 :=
  vmmPteWritable ||| vmmPteUser ||| vmmPteWriteThrough ||| vmmPteCacheDisable ||| vmmPteGlobal |||
    vmmPteNoExecute

inductive VmmError where
  | errInval
  | errNomem
  | errExists
  | errNotFound
deriving DecidableEq, Repr

def VmmError.code : VmmError → Int
  | .errInval => -1
  | .errNomem => -2
  | .errExists => -3
  | .errNotFound => -4

/-- The 512 entries of a table. -/
abbrev Page := Fin 512 → UInt64

/-- The tables in memory. -/
abbrev Memory (τ : Type) := τ → Page

/-- The calls of `alloc_frame`, with the memory before and after them, and those of
`free_frame`. -/
inductive FrameEvent (τ : Type) where
  | alloc (before after : Memory τ) (frame : UInt64)
  | free (frame : UInt64)

/-- What the functions work on: the state of the callbacks, the memory, and the calls
of the callbacks so far. -/
structure Machine (τ σ : Type) where
  ctx : σ
  mem : Memory τ
  log : List (FrameEvent τ)

/-- `struct vmm_space`, with the callbacks applied to the `ctx` pointer.  The allocator
may change the memory; the translation of addresses is fixed. -/
structure VmmSpace (τ σ : Type) where
  rootPaddr : UInt64
  allocFrame : Option (σ → Memory τ → σ × Memory τ × UInt64)
  freeFrame : Option (σ → UInt64 → σ)
  physToVirt : Option (UInt64 → Option τ)

structure VmmMapping where
  vaddr : UInt64
  paddr : UInt64
  flags : UInt64
deriving DecidableEq, Repr

def vmmZeroPage : Page := fun _ => 0

def vmmIsAligned4k (value : UInt64) : Bool := value &&& (4096 - 1) == 0

def vmmIsCanonical (vaddr : UInt64) : Bool :=
  let sign := (vaddr >>> 47) &&& 1
  let upper := vaddr >>> 48
  if sign ≠ 0 then upper == 0xffff else upper == 0

/-- Nine bits of an address, from `shift` on. -/
def idx (shift vaddr : UInt64) : Fin 512 :=
  ⟨((vaddr >>> shift) &&& 0x1ff).toNat, by
    rw [UInt64.toNat_and]
    exact Nat.lt_of_le_of_lt Nat.and_le_right (by decide)⟩

def idxPml4 (vaddr : UInt64) : Fin 512 := idx 39 vaddr

def idxPdpt (vaddr : UInt64) : Fin 512 := idx 30 vaddr

def idxPd (vaddr : UInt64) : Fin 512 := idx 21 vaddr

def idxPt (vaddr : UInt64) : Fin 512 := idx 12 vaddr

section Tables

variable {τ σ : Type}

def tableFromPhys (space : VmmSpace τ σ) (paddr : UInt64) : Option τ :=
  match space.physToVirt with
  | none => none
  | some physToVirt => if vmmIsAligned4k paddr = false then none else physToVirt paddr

/-- `vmm_space_init`; `space` says whether the pointer is not null. -/
def vmmSpaceInit (space : Bool) (rootPaddr : UInt64)
    (allocFrame : Option (σ → Memory τ → σ × Memory τ × UInt64))
    (freeFrame : Option (σ → UInt64 → σ)) (physToVirt : Option (UInt64 → Option τ)) :
    Except VmmError (VmmSpace τ σ) :=
  if space = false ∨ physToVirt.isNone ∨ vmmIsAligned4k rootPaddr = false then .error .errInval
  else .ok ⟨rootPaddr, allocFrame, freeFrame, physToVirt⟩

variable [DecidableEq τ]

/-- The assignment of one entry of a table. -/
def setEntry (mem : Memory τ) (table : τ) (index : Fin 512) (entry : UInt64) : Memory τ :=
  Function.update mem table (Function.update (mem table) index entry)

/-- The part of `get_or_alloc_next_table` for an entry that is not present. -/
def allocNextTable (space : VmmSpace τ σ) (m : Machine τ σ) (table : τ) (index : Fin 512) :
    Machine τ σ × Except VmmError τ :=
  match space.allocFrame with
  | none => (m, .error .errNomem)
  | some allocFrame =>
      let (ctx, mem, newPaddr) := allocFrame m.ctx m.mem
      let m : Machine τ σ := ⟨ctx, mem, m.log ++ [.alloc m.mem mem newPaddr]⟩
      if newPaddr = vmmInvalidPhys ∨ vmmIsAligned4k newPaddr = false then (m, .error .errNomem)
      else
        match tableFromPhys space newPaddr with
        | none =>
            match space.freeFrame with
            | none => (m, .error .errInval)
            | some freeFrame =>
                ({ m with ctx := freeFrame m.ctx newPaddr, log := m.log ++ [.free newPaddr] },
                  .error .errInval)
        | some newTable =>
            let mem := Function.update m.mem newTable vmmZeroPage
            let entry := (newPaddr &&& vmmPteAddrMask) ||| vmmPtePresent ||| vmmPteWritable
            ({ m with mem := setEntry mem table index entry }, .ok newTable)

def getOrAllocNextTable (space : VmmSpace τ σ) (m : Machine τ σ) (table : τ) (index : Fin 512) :
    Machine τ σ × Except VmmError τ :=
  let entry := m.mem table index
  if entry &&& vmmPtePresent ≠ 0 then
    if entry &&& vmmPteHuge ≠ 0 then (m, .error .errExists)
    else
      match tableFromPhys space (entry &&& vmmPteAddrMask) with
      | none => (m, .error .errInval)
      | some next => (m, .ok next)
  else allocNextTable space m table index

/-- The last level of `vmm_map_page`. -/
def mapEntry (m : Machine τ σ) (pt : τ) (vaddr paddr flags : UInt64) :
    Machine τ σ × Except VmmError Unit :=
  let pti := idxPt vaddr
  if m.mem pt pti &&& vmmPtePresent ≠ 0 then (m, .error .errExists)
  else
    let entry := (paddr &&& vmmPteAddrMask) ||| vmmPtePresent ||| (flags &&& allowedFlags)
    ({ m with mem := setEntry m.mem pt pti entry }, .ok ())

/-- `vmm_map_page`; a null space is `none`. -/
def vmmMapPage (space : Option (VmmSpace τ σ)) (m : Machine τ σ) (vaddr paddr flags : UInt64) :
    Machine τ σ × Except VmmError Unit :=
  match space with
  | none => (m, .error .errInval)
  | some space =>
      if vmmIsCanonical vaddr = false ∨ vmmIsAligned4k vaddr = false ∨
          vmmIsAligned4k paddr = false then (m, .error .errInval)
      else
        match tableFromPhys space space.rootPaddr with
        | none => (m, .error .errInval)
        | some pml4 =>
            match getOrAllocNextTable space m pml4 (idxPml4 vaddr) with
            | (m, .error rc) => (m, .error rc)
            | (m, .ok pdpt) =>
                match getOrAllocNextTable space m pdpt (idxPdpt vaddr) with
                | (m, .error rc) => (m, .error rc)
                | (m, .ok pd) =>
                    match getOrAllocNextTable space m pd (idxPd vaddr) with
                    | (m, .error rc) => (m, .error rc)
                    | (m, .ok pt) => mapEntry m pt vaddr paddr flags

/-- One level of the walks of `vmm_query_page` and `vmm_unmap_page`. -/
def nextTable (space : VmmSpace τ σ) (mem : Memory τ) (table : τ) (index : Fin 512) :
    Except VmmError τ :=
  let entry := mem table index
  if entry &&& vmmPtePresent = 0 ∨ entry &&& vmmPteHuge ≠ 0 then .error .errNotFound
  else
    match tableFromPhys space (entry &&& vmmPteAddrMask) with
    | none => .error .errInval
    | some next => .ok next

/-- The walk to the last table, which `vmm_query_page` and `vmm_unmap_page` share. -/
def findPageTable (space : VmmSpace τ σ) (mem : Memory τ) (vaddr : UInt64) :
    Except VmmError τ :=
  match tableFromPhys space space.rootPaddr with
  | none => .error .errInval
  | some pml4 =>
      match nextTable space mem pml4 (idxPml4 vaddr) with
      | .error rc => .error rc
      | .ok pdpt =>
          match nextTable space mem pdpt (idxPdpt vaddr) with
          | .error rc => .error rc
          | .ok pd => nextTable space mem pd (idxPd vaddr)

/-- `vmm_query_page`; `out` says whether the pointer is not null. -/
def vmmQueryPage (space : Option (VmmSpace τ σ)) (mem : Memory τ) (vaddr : UInt64) (out : Bool) :
    Except VmmError VmmMapping :=
  match space with
  | none => .error .errInval
  | some space =>
      if out = false ∨ vmmIsCanonical vaddr = false ∨ vmmIsAligned4k vaddr = false then
        .error .errInval
      else
        match findPageTable space mem vaddr with
        | .error rc => .error rc
        | .ok pt =>
            let entry := mem pt (idxPt vaddr)
            if entry &&& vmmPtePresent = 0 then .error .errNotFound
            else .ok ⟨vaddr, entry &&& vmmPteAddrMask, entry &&& ~~~vmmPteAddrMask⟩

/-- `vmm_unmap_page`; dropping the translation from the processor's cache does not
change the memory. -/
def vmmUnmapPage (space : Option (VmmSpace τ σ)) (m : Machine τ σ) (vaddr : UInt64) :
    Machine τ σ × Except VmmError Unit :=
  match space with
  | none => (m, .error .errInval)
  | some space =>
      if vmmIsCanonical vaddr = false ∨ vmmIsAligned4k vaddr = false then (m, .error .errInval)
      else
        match findPageTable space m.mem vaddr with
        | .error rc => (m, .error rc)
        | .ok pt =>
            let pti := idxPt vaddr
            if m.mem pt pti &&& vmmPtePresent = 0 then (m, .error .errNotFound)
            else ({ m with mem := setEntry m.mem pt pti 0 }, .ok ())

end Tables

end Mcsos.VmmModel

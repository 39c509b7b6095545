import Mcsos.ByteMemory

/-!
The ELF64 loader of `mcsos/kernel/user/m11_elf_loader.c`.  Structure fields have
the widths of the header file and are read at their offsets in the image.
-/

namespace Mcsos.ElfModel

open Mcsos.ByteMemory

inductive M11Code where
  | ok
  | errNull
  | errSize
  | errMagic
  | errClass
  | errEndian
  | errVersion
  | errType
  | errMachine
  | errEhsize
  | errPhentsize
  | errPhbounds
  | errAlign
  | errSegbounds
  | errSegrange
  | errSegcount
  | errEntry
  | errFlags
deriving DecidableEq, Repr

/-- The fields of `struct m11_elf64_ehdr` that the loader reads. -/
structure M11Elf64Ehdr where
  eIdent : Nat → UInt8
  eType : UInt16
  eMachine : UInt16
  eVersion : UInt32
  eEntry : UInt64
  ePhoff : UInt64
  eEhsize : UInt16
  ePhentsize : UInt16
  ePhnum : UInt16

/-- The fields of `struct m11_elf64_phdr` that the loader reads. -/
structure M11Elf64Phdr where
  pType : UInt32
  pFlags : UInt32
  pOffset : UInt64
  pVaddr : UInt64
  pFilesz : UInt64
  pMemsz : UInt64
  pAlign : UInt64
deriving DecidableEq, Repr

structure M11UserRegion where
  base : UInt64
  limit : UInt64
deriving DecidableEq, Repr

structure M11SegmentPlan where
  fileOffset : UInt64
  vaddr : UInt64
  filesz : UInt64
  memsz : UInt64
  align : UInt64
  flags : UInt32
deriving DecidableEq, Repr

/-- `struct m11_process_image_plan`; the array has `M11_MAX_LOAD_SEGMENTS` slots. -/
structure M11ProcessImagePlan where
  entry : UInt64
  segmentCount : Nat
  segments : Nat → M11SegmentPlan

def ehdrSize : Nat := 64

def phdrSize : Nat := 56

def m11MaxLoadSegments : Nat := 8

def m11PtLoad : UInt32 := 1

def m11PfX : UInt32 := 1

def m11PfW : UInt32 := 2

def m11PfR : UInt32 := 4

/-- The file header that starts the image. -/
def readEhdr (image : ByteMem) : M11Elf64Ehdr where
  eIdent := image
  eType := UInt16.ofNat (readLE image 16 2)
  eMachine := UInt16.ofNat (readLE image 18 2)
  eVersion := UInt32.ofNat (readLE image 20 4)
  eEntry := UInt64.ofNat (readLE image 24 8)
  ePhoff := UInt64.ofNat (readLE image 32 8)
  eEhsize := UInt16.ofNat (readLE image 52 2)
  ePhentsize := UInt16.ofNat (readLE image 54 2)
  ePhnum := UInt16.ofNat (readLE image 56 2)

/-- The program header at `addr`. -/
def readPhdr (image : ByteMem) (addr : Nat) : M11Elf64Phdr where
  pType := UInt32.ofNat (readLE image addr 4)
  pFlags := UInt32.ofNat (readLE image (addr + 4) 4)
  pOffset := UInt64.ofNat (readLE image (addr + 8) 8)
  pVaddr := UInt64.ofNat (readLE image (addr + 16) 8)
  pFilesz := UInt64.ofNat (readLE image (addr + 32) 8)
  pMemsz := UInt64.ofNat (readLE image (addr + 40) 8)
  pAlign := UInt64.ofNat (readLE image (addr + 48) 8)

def m11AddOverflowU64 (a b : UInt64) : Option UInt64 :=
  let r := a + b
  if r < a then none else some r

def m11IsPowerOfTwoU64 (v : UInt64) : Bool := v != 0 && v &&& (v - 1) == 0

def zeroSegment : M11SegmentPlan := ⟨0, 0, 0, 0, 0, 0⟩

def m11ZeroPlan (plan : M11ProcessImagePlan) : M11ProcessImagePlan where
  entry := 0
  segmentCount := 0
  segments i := if i < m11MaxLoadSegments then zeroSegment else plan.segments i

def m11ValidateUserRange (region : M11UserRegion) (base size : UInt64) : M11Code :=
  if region.base ≥ region.limit then .errSegrange
  else if size = 0 then .errSegrange
  else
    match m11AddOverflowU64 base size with
    | none => .errSegrange
    | some last =>
        if base < region.base ∨ last > region.limit ∨ last ≤ base then .errSegrange else .ok

def m11ValidateIdent (eh : M11Elf64Ehdr) : M11Code :=
  if eh.eIdent 0 ≠ 0x7f ∨ eh.eIdent 1 ≠ 0x45 ∨ eh.eIdent 2 ≠ 0x4c ∨ eh.eIdent 3 ≠ 0x46 then
    .errMagic
  else if eh.eIdent 4 ≠ 2 then .errClass
  else if eh.eIdent 5 ≠ 1 then .errEndian
  else if eh.eIdent 6 ≠ 1 ∨ eh.eVersion ≠ 1 then .errVersion
  else .ok

def m11ValidatePhdrBounds (eh : M11Elf64Ehdr) (imageSize : UInt64) : M11Code :=
  if eh.ePhnum = 0 then .errPhbounds
  else if eh.ePhentsize ≠ UInt16.ofNat phdrSize then .errPhentsize
  else
    let phTableBytes := eh.ePhentsize.toUInt64 * eh.ePhnum.toUInt64
    if eh.ePhnum ≠ 0 ∧ phTableBytes / eh.ePhnum.toUInt64 ≠ eh.ePhentsize.toUInt64 then
      .errPhbounds
    else
      match m11AddOverflowU64 eh.ePhoff phTableBytes with
      | none => .errPhbounds
      | some phEnd =>
          if phEnd > imageSize ∨ eh.ePhoff > imageSize then .errPhbounds else .ok

def m11ValidateLoadSegment (ph : M11Elf64Phdr) (imageSize : UInt64) (region : M11UserRegion) :
    M11Code :=
  if ph.pFlags &&& ~~~(m11PfR ||| m11PfW ||| m11PfX) ≠ 0 then .errFlags
  else if ph.pFlags &&& m11PfW ≠ 0 ∧ ph.pFlags &&& m11PfX ≠ 0 then .errFlags
  else if ph.pMemsz < ph.pFilesz then .errSegbounds
  else if ph.pAlign ≠ 0 ∧ ph.pAlign ≠ 1 ∧ m11IsPowerOfTwoU64 ph.pAlign = false then .errAlign
  else if ph.pAlign ≠ 0 ∧ ph.pAlign ≠ 1 ∧ ph.pVaddr % ph.pAlign ≠ ph.pOffset % ph.pAlign then
    .errAlign
  else
    match m11AddOverflowU64 ph.pOffset ph.pFilesz with
    | none => .errSegbounds
    | some fileEnd =>
        if fileEnd > imageSize ∨ ph.pOffset > imageSize then .errSegbounds
        else m11ValidateUserRange region ph.pVaddr ph.pMemsz

def segmentOf (ph : M11Elf64Phdr) : M11SegmentPlan :=
  ⟨ph.pOffset, ph.pVaddr, ph.pFilesz, ph.pMemsz, ph.pAlign, ph.pFlags⟩

/-- The stores into the next free slot of the plan. -/
def M11ProcessImagePlan.addSegment (plan : M11ProcessImagePlan) (ph : M11Elf64Phdr) :
    M11ProcessImagePlan :=
  { plan with
    segments := Function.update plan.segments plan.segmentCount (segmentOf ph)
    segmentCount := plan.segmentCount + 1 }

/-- The loop of `m11_elf64_plan_load` over the program headers from `addr` on. -/
def planSegments (image : ByteMem) (imageSize : UInt64) (region : M11UserRegion)
    (plan : M11ProcessImagePlan) (addr : Nat) : Nat → M11ProcessImagePlan × M11Code
  | 0 => (plan, .ok)
  | count + 1 =>
      let ph := readPhdr image addr
      if ph.pType ≠ m11PtLoad then
        planSegments image imageSize region plan (addr + phdrSize) count
      else if m11MaxLoadSegments ≤ plan.segmentCount then (m11ZeroPlan plan, .errSegcount)
      else
        match m11ValidateLoadSegment ph imageSize region with
        | .ok => planSegments image imageSize region (plan.addSegment ph) (addr + phdrSize) count
        | rc => (m11ZeroPlan plan, rc)

/-- `m11_elf64_plan_load` on pointers that are not null. -/
def planImage (image : ByteMem) (imageSize : UInt64) (region : M11UserRegion)
    (outPlan : M11ProcessImagePlan) : M11ProcessImagePlan × M11Code :=
  let eh := readEhdr image
  let plan := m11ZeroPlan outPlan
  if imageSize < UInt64.ofNat ehdrSize then (plan, .errSize)
  else if m11ValidateIdent eh ≠ .ok then (plan, m11ValidateIdent eh)
  else if eh.eType ≠ 2 ∧ eh.eType ≠ 3 then (plan, .errType)
  else if eh.eMachine ≠ 62 then (plan, .errMachine)
  else if eh.eEhsize ≠ UInt16.ofNat ehdrSize then (plan, .errEhsize)
  else if m11ValidatePhdrBounds eh imageSize ≠ .ok then
    (plan, m11ValidatePhdrBounds eh imageSize)
  else if m11ValidateUserRange region eh.eEntry 1 ≠ .ok then (plan, .errEntry)
  else
    let (plan, rc) := planSegments image imageSize region { plan with entry := eh.eEntry }
      eh.ePhoff.toNat eh.ePhnum.toNat
    if rc ≠ .ok then (plan, rc)
    else if plan.segmentCount = 0 then (plan, .errSegcount)
    else (plan, .ok)

/-- `m11_elf64_plan_load`, with `none` for a null pointer. -/
def m11Elf64PlanLoad (image : Option ByteMem) (imageSize : UInt64) (region : M11UserRegion)
    (outPlan : Option M11ProcessImagePlan) : Option M11ProcessImagePlan × M11Code :=
  match image, outPlan with
  | some image, some outPlan =>
      let (plan, rc) := planImage image imageSize region outPlan
      (some plan, rc)
  | _, _ => (outPlan, .errNull)

end Mcsos.ElfModel

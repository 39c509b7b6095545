import Mcsos.ElfAcceptance
import Mcsos.ReadPrograms

/-!
The bytes of an image that the ELF loader reads.  The loader is written once more as a program
that asks for bytes, field by field where `m11_elf64_plan_load` and the functions it calls need
them.
-/

namespace Mcsos.ElfReads

open Mcsos.ByteMemory
open Mcsos.ElfAcceptance
open Mcsos.ElfModel
open Mcsos.ReadPrograms

abbrev ImageReading := Reading Nat UInt8

def readByte (addr : Nat) : ImageReading UInt8 := .read addr pure

/-- A little-endian field. -/
def readField (addr : Nat) : Nat → ImageReading Nat
  | 0 => pure 0
  | count + 1 => do
      let low ← readByte addr
      let high ← readField (addr + 1) count
      pure (low.toNat + 256 * high)

def readU16 (addr : Nat) : ImageReading UInt16 := do
  let field ← readField addr 2
  pure (UInt16.ofNat field)

def readU32 (addr : Nat) : ImageReading UInt32 := do
  let field ← readField addr 4
  pure (UInt32.ofNat field)

def readU64 (addr : Nat) : ImageReading UInt64 := do
  let field ← readField addr 8
  pure (UInt64.ofNat field)

/-- `m11_validate_ident`. -/
def identReading : ImageReading M11Code := do
  let mag0 ← readByte 0
  if mag0 ≠ 0x7f then pure .errMagic
  else
    let mag1 ← readByte 1
    if mag1 ≠ 0x45 then pure .errMagic
    else
      let mag2 ← readByte 2
      if mag2 ≠ 0x4c then pure .errMagic
      else
        let mag3 ← readByte 3
        if mag3 ≠ 0x46 then pure .errMagic
        else
          let elfClass ← readByte 4
          if elfClass ≠ 2 then pure .errClass
          else
            let data ← readByte 5
            if data ≠ 1 then pure .errEndian
            else
              let identVersion ← readByte 6
              if identVersion ≠ 1 then pure .errVersion
              else
                let eVersion ← readU32 20
                if eVersion ≠ 1 then pure .errVersion else pure .ok

/-- `m11_validate_phdr_bounds`. -/
def phdrBoundsReading (imageSize : UInt64) : ImageReading M11Code := do
  let ePhnum ← readU16 56
  if ePhnum = 0 then pure .errPhbounds
  else
    let ePhentsize ← readU16 54
    if ePhentsize ≠ UInt16.ofNat phdrSize then pure .errPhentsize
    else
      let phTableBytes := ePhentsize.toUInt64 * ePhnum.toUInt64
      if ePhnum ≠ 0 ∧ phTableBytes / ePhnum.toUInt64 ≠ ePhentsize.toUInt64 then pure .errPhbounds
      else
        let ePhoff ← readU64 32
        match m11AddOverflowU64 ePhoff phTableBytes with
        | none => pure .errPhbounds
        | some phEnd =>
            if phEnd > imageSize ∨ ePhoff > imageSize then pure .errPhbounds else pure .ok

/-- The test of `m11_validate_load_segment` on the alignment, which looks at the addresses only
when there is one. -/
def alignmentReading (addr : Nat) (pAlign : UInt64) : ImageReading Bool :=
  if pAlign ≠ 0 ∧ pAlign ≠ 1 then
    if m11IsPowerOfTwoU64 pAlign = false then pure false
    else do
      let pVaddr ← readU64 (addr + 16)
      let pOffset ← readU64 (addr + 8)
      pure (pVaddr % pAlign == pOffset % pAlign)
  else pure true

/-- `m11_validate_load_segment` on the program header at `addr`. -/
def loadSegmentReading (addr : Nat) (imageSize : UInt64) (region : M11UserRegion) :
    ImageReading M11Code := do
  let pFlags ← readU32 (addr + 4)
  if pFlags &&& ~~~(m11PfR ||| m11PfW ||| m11PfX) ≠ 0 then pure .errFlags
  else if pFlags &&& m11PfW ≠ 0 ∧ pFlags &&& m11PfX ≠ 0 then pure .errFlags
  else
    let pMemsz ← readU64 (addr + 40)
    let pFilesz ← readU64 (addr + 32)
    if pMemsz < pFilesz then pure .errSegbounds
    else
      let pAlign ← readU64 (addr + 48)
      let aligned ← alignmentReading addr pAlign
      if aligned = false then pure .errAlign
      else
        let pOffset ← readU64 (addr + 8)
        match m11AddOverflowU64 pOffset pFilesz with
        | none => pure .errSegbounds
        | some fileEnd =>
            if fileEnd > imageSize ∨ pOffset > imageSize then pure .errSegbounds
            else
              let pVaddr ← readU64 (addr + 16)
              pure (m11ValidateUserRange region pVaddr pMemsz)

/-- The fields of a program header that are stored in the plan. -/
def phdrReading (pType : UInt32) (addr : Nat) : ImageReading M11Elf64Phdr := do
  let pOffset ← readU64 (addr + 8)
  let pVaddr ← readU64 (addr + 16)
  let pFilesz ← readU64 (addr + 32)
  let pMemsz ← readU64 (addr + 40)
  let pAlign ← readU64 (addr + 48)
  let pFlags ← readU32 (addr + 4)
  pure ⟨pType, pFlags, pOffset, pVaddr, pFilesz, pMemsz, pAlign⟩

/-- The loop over the program headers. -/
def segmentsReading (imageSize : UInt64) (region : M11UserRegion) (plan : M11ProcessImagePlan)
    (addr : Nat) : Nat → ImageReading (M11ProcessImagePlan × M11Code)
  | 0 => pure (plan, .ok)
  | count + 1 => do
      let pType ← readU32 addr
      if pType ≠ m11PtLoad then segmentsReading imageSize region plan (addr + phdrSize) count
      else if m11MaxLoadSegments ≤ plan.segmentCount then pure (m11ZeroPlan plan, .errSegcount)
      else
        let rc ← loadSegmentReading addr imageSize region
        match rc with
        | .ok =>
            let ph ← phdrReading pType addr
            segmentsReading imageSize region (plan.addSegment ph) (addr + phdrSize) count
        | rc => pure (m11ZeroPlan plan, rc)

/-- `m11_elf64_plan_load` on pointers that are not null. -/
def imageReading (imageSize : UInt64) (region : M11UserRegion) (outPlan : M11ProcessImagePlan) :
    ImageReading (M11ProcessImagePlan × M11Code) :=
  let plan := m11ZeroPlan outPlan
  if imageSize < UInt64.ofNat ehdrSize then pure (plan, .errSize)
  else do
    let rc ← identReading
    if rc ≠ .ok then pure (plan, rc)
    else
      let eType ← readU16 16
      if eType ≠ 2 ∧ eType ≠ 3 then pure (plan, .errType)
      else
        let eMachine ← readU16 18
        if eMachine ≠ 62 then pure (plan, .errMachine)
        else
          let eEhsize ← readU16 52
          if eEhsize ≠ UInt16.ofNat ehdrSize then pure (plan, .errEhsize)
          else
            let rc ← phdrBoundsReading imageSize
            if rc ≠ .ok then pure (plan, rc)
            else
              let eEntry ← readU64 24
              if m11ValidateUserRange region eEntry 1 ≠ .ok then pure (plan, .errEntry)
              else
                let ePhoff ← readU64 32
                let ePhnum ← readU16 56
                let (plan, rc) ← segmentsReading imageSize region { plan with entry := eEntry }
                  ePhoff.toNat ePhnum.toNat
                if rc ≠ .ok then pure (plan, rc)
                else if plan.segmentCount = 0 then pure (plan, .errSegcount)
                else pure (plan, .ok)

section Values

variable (image : ByteMem)

@[simp] theorem value_readByte (addr : Nat) : (readByte addr).value image = image addr := by
  rw [readByte, Reading.value, value_pure]

@[simp] theorem value_readField (addr count : Nat) :
    (readField addr count).value image = readLE image addr count := by
  induction count generalizing addr with
  | zero => rfl
  | succ count ih => rw [readField, value_bind, value_bind, ih, value_readByte, value_pure, readLE]

@[simp] theorem value_readU16 (addr : Nat) :
    (readU16 addr).value image = UInt16.ofNat (readLE image addr 2) := by
  rw [readU16, value_bind, value_pure, value_readField]

@[simp] theorem value_readU32 (addr : Nat) :
    (readU32 addr).value image = UInt32.ofNat (readLE image addr 4) := by
  rw [readU32, value_bind, value_pure, value_readField]

@[simp] theorem value_readU64 (addr : Nat) :
    (readU64 addr).value image = UInt64.ofNat (readLE image addr 8) := by
  rw [readU64, value_bind, value_pure, value_readField]

theorem value_identReading :
    identReading.value image = m11ValidateIdent (readEhdr image) := by
  rw [m11ValidateIdent]
  simp only [identReading, value_bind, value_ite, value_pure, value_readByte, value_readU32,
    ite_or]
  rfl

theorem value_phdrBoundsReading (imageSize : UInt64) :
    (phdrBoundsReading imageSize).value image =
      m11ValidatePhdrBounds (readEhdr image) imageSize := by
  rw [m11ValidatePhdrBounds]
  simp only [phdrBoundsReading, value_bind, value_ite, value_pure, value_readU16, value_readU64]
  rw [readEhdr]
  rcases m11AddOverflowU64 _ _ with _ | phEnd
  · rfl
  · simp only [value_ite, value_pure]

theorem value_alignmentReading (addr : Nat) (pAlign : UInt64) :
    (alignmentReading addr pAlign).value image = false ↔
      pAlign ≠ 0 ∧ pAlign ≠ 1 ∧ m11IsPowerOfTwoU64 pAlign = false ∨
        pAlign ≠ 0 ∧ pAlign ≠ 1 ∧ (readPhdr image addr).pVaddr % pAlign ≠
          (readPhdr image addr).pOffset % pAlign := by
  simp only [alignmentReading, value_ite, value_bind, value_pure, value_readU64, readPhdr]
  split
  case isTrue hsome =>
    split
    case isTrue hpower => simp [hsome, hpower]
    case isFalse hpower => simp [hsome, hpower]
  case isFalse hnone =>
    rw [not_and_or, not_not, not_not] at hnone
    rcases hnone with hzero | hone
    · simp [hzero]
    · simp [hone]

theorem value_loadSegmentReading (addr : Nat) (imageSize : UInt64) (region : M11UserRegion) :
    (loadSegmentReading addr imageSize region).value image =
      m11ValidateLoadSegment (readPhdr image addr) imageSize region := by
  rw [m11ValidateLoadSegment]
  simp only [loadSegmentReading, value_bind, value_ite, value_pure, value_readU32, value_readU64,
    value_alignmentReading, ite_or]
  rw [readPhdr]
  dsimp only
  rcases m11AddOverflowU64 _ _ with _ | fileEnd
  · rfl
  · simp only [value_bind, value_ite, value_pure, value_readU64]

theorem value_phdrReading (addr : Nat) :
    (phdrReading (readPhdr image addr).pType addr).value image = readPhdr image addr := by
  simp only [phdrReading, value_bind, value_pure, value_readU32, value_readU64]
  rfl

theorem value_segmentsReading (imageSize : UInt64) (region : M11UserRegion) (count : Nat) :
    ∀ (plan : M11ProcessImagePlan) (addr : Nat),
      (segmentsReading imageSize region plan addr count).value image =
        planSegments image imageSize region plan addr count := by
  induction count with
  | zero => exact fun _ _ => rfl
  | succ count ih =>
      intro plan addr
      have htype : UInt32.ofNat (readLE image addr 4) = (readPhdr image addr).pType := rfl
      rw [planSegments]
      simp only [segmentsReading, value_bind, value_ite, value_pure, value_readU32, htype, ih,
        value_loadSegmentReading]
      rcases m11ValidateLoadSegment (readPhdr image addr) imageSize region
      case ok => simp only [value_bind, value_phdrReading, ih]
      all_goals rfl

theorem value_imageReading (imageSize : UInt64) (region : M11UserRegion)
    (outPlan : M11ProcessImagePlan) :
    (imageReading imageSize region outPlan).value image =
      planImage image imageSize region outPlan := by
  rw [planImage]
  simp only [imageReading, value_bind, value_ite, value_pure, value_readU16, value_readU64,
    value_identReading, value_phdrBoundsReading, value_segmentsReading]
  rfl

end Values

section Reads

variable {image : ByteMem} {P : Nat → Prop}

theorem within_readByte {addr : Nat} (h : P addr) : (readByte addr).Within image P := by
  intro a ha
  rw [readByte, Reading.reads, reads_pure] at ha
  rw [List.mem_singleton.mp ha]
  exact h

theorem within_readField {addr count : Nat} (h : ∀ a, addr ≤ a → a < addr + count → P a) :
    (readField addr count).Within image P := by
  induction count generalizing addr with
  | zero => exact within_pure 0
  | succ count ih =>
      refine within_bind (within_readByte (h addr (Nat.le_refl _) (by omega))) ?_
      refine within_bind (ih fun a hlow hhigh => h a (by omega) (by omega)) (within_pure _)

theorem within_readU16 {addr : Nat} (h : ∀ a, addr ≤ a → a < addr + 2 → P a) :
    (readU16 addr).Within image P :=
  within_bind (within_readField h) (within_pure _)

theorem within_readU32 {addr : Nat} (h : ∀ a, addr ≤ a → a < addr + 4 → P a) :
    (readU32 addr).Within image P :=
  within_bind (within_readField h) (within_pure _)

theorem within_readU64 {addr : Nat} (h : ∀ a, addr ≤ a → a < addr + 8 → P a) :
    (readU64 addr).Within image P :=
  within_bind (within_readField h) (within_pure _)

theorem ehdr_field (h : ∀ a, a < ehdrSize → P a) {addr width : Nat}
    (hend : addr + width ≤ ehdrSize) : ∀ a, addr ≤ a → a < addr + width → P a :=
  fun a _ ha => h a (Nat.lt_of_lt_of_le ha hend)

theorem within_identReading (h : ∀ a, a < ehdrSize → P a) : identReading.Within image P := by
  refine within_check (within_readByte (h 0 (by decide))) fun _ => ?_
  refine within_check (within_readByte (h 1 (by decide))) fun _ => ?_
  refine within_check (within_readByte (h 2 (by decide))) fun _ => ?_
  refine within_check (within_readByte (h 3 (by decide))) fun _ => ?_
  refine within_check (within_readByte (h 4 (by decide))) fun _ => ?_
  refine within_check (within_readByte (h 5 (by decide))) fun _ => ?_
  refine within_check (within_readByte (h 6 (by decide))) fun _ => ?_
  exact within_check (within_readU32 (ehdr_field h (by decide))) fun _ => within_pure _

theorem within_phdrBoundsReading (imageSize : UInt64) (h : ∀ a, a < ehdrSize → P a) :
    (phdrBoundsReading imageSize).Within image P := by
  refine within_check (within_readU16 (ehdr_field h (by decide))) fun _ => ?_
  refine within_check (within_readU16 (ehdr_field h (by decide))) fun _ => ?_
  refine within_ite (fun _ => within_pure _) fun _ => ?_
  refine within_bind (within_readU64 (ehdr_field h (by decide))) ?_
  split
  · exact within_pure _
  · exact within_ite (fun _ => within_pure _) fun _ => within_pure _

section Phdr

variable {addr : Nat} (h : ∀ a, addr ≤ a → a < addr + phdrSize → P a)

include h

theorem phdr_field {offset width : Nat} (hend : offset + width ≤ phdrSize) :
    ∀ a, addr + offset ≤ a → a < addr + offset + width → P a :=
  fun a hlow hhigh => h a (by omega) (by omega)

theorem within_alignmentReading (pAlign : UInt64) :
    (alignmentReading addr pAlign).Within image P := by
  refine within_ite (fun _ => within_ite (fun _ => within_pure _) fun _ => ?_) fun _ =>
    within_pure _
  refine within_bind (within_readU64 (phdr_field h (by decide))) ?_
  exact within_bind (within_readU64 (phdr_field h (by decide))) (within_pure _)

theorem within_loadSegmentReading (imageSize : UInt64) (region : M11UserRegion) :
    (loadSegmentReading addr imageSize region).Within image P := by
  refine within_check (within_readU32 (phdr_field h (by decide))) fun _ => ?_
  refine within_ite (fun _ => within_pure _) fun _ => ?_
  refine within_bind (within_readU64 (phdr_field h (by decide))) ?_
  refine within_check (within_readU64 (phdr_field h (by decide))) fun _ => ?_
  refine within_bind (within_readU64 (phdr_field h (by decide))) ?_
  refine within_check (within_alignmentReading h _) fun _ => ?_
  refine within_bind (within_readU64 (phdr_field h (by decide))) ?_
  split
  · exact within_pure _
  · refine within_ite (fun _ => within_pure _) fun _ => ?_
    exact within_bind (within_readU64 (phdr_field h (by decide))) (within_pure _)

theorem within_phdrReading (pType : UInt32) : (phdrReading pType addr).Within image P := by
  refine within_bind (within_readU64 (phdr_field h (by decide))) ?_
  refine within_bind (within_readU64 (phdr_field h (by decide))) ?_
  refine within_bind (within_readU64 (phdr_field h (by decide))) ?_
  refine within_bind (within_readU64 (phdr_field h (by decide))) ?_
  refine within_bind (within_readU64 (phdr_field h (by decide))) ?_
  exact within_bind (within_readU32 (phdr_field h (by decide))) (within_pure _)

end Phdr

theorem within_segmentsReading (imageSize : UInt64) (region : M11UserRegion) (count : Nat) :
    ∀ (plan : M11ProcessImagePlan) (addr : Nat),
      (∀ a, addr ≤ a → a < addr + phdrSize * count → P a) →
      (segmentsReading imageSize region plan addr count).Within image P := by
  induction count with
  | zero => exact fun plan addr _ => within_pure _
  | succ count ih =>
      intro plan addr h
      rw [Nat.mul_succ] at h
      have hfirst : ∀ a, addr ≤ a → a < addr + phdrSize → P a :=
        fun a hlow hhigh => h a hlow (by omega)
      have hrest : ∀ a, addr + phdrSize ≤ a → a < addr + phdrSize + phdrSize * count → P a :=
        fun a hlow hhigh => h a (by omega) (by omega)
      refine within_bind (within_readU32 fun a hlow hhigh => hfirst a hlow ?_) ?_
      · exact Nat.lt_of_lt_of_le hhigh (Nat.add_le_add_left (by decide) addr)
      refine within_ite (fun _ => ih plan _ hrest) fun _ => ?_
      refine within_ite (fun _ => within_pure _) fun _ => ?_
      refine within_bind (within_loadSegmentReading hfirst imageSize region) ?_
      split
      · exact within_bind (within_phdrReading hfirst _) (ih _ _ hrest)
      · exact within_pure _

/-- A byte of the file header or of the program-header table. -/
def InHeaders (image : ByteMem) (addr : Nat) : Prop :=
  addr < ehdrSize ∨ (readEhdr image).ePhoff.toNat ≤ addr ∧
    addr < (readEhdr image).ePhoff.toNat + phdrSize * (readEhdr image).ePhnum.toNat

theorem within_imageReading (image : ByteMem) (imageSize : UInt64) (region : M11UserRegion)
    (outPlan : M11ProcessImagePlan) :
    (imageReading imageSize region outPlan).Within image fun addr =>
      addr < imageSize.toNat ∧ InHeaders image addr := by
  refine within_ite (fun _ => within_pure _) fun hlarge => ?_
  have hsize : ehdrSize ≤ imageSize.toNat := by
    rw [UInt64.lt_iff_toNat_lt] at hlarge
    exact Nat.not_lt.mp hlarge
  have hheader : ∀ a, a < ehdrSize → a < imageSize.toNat ∧ InHeaders image a :=
    fun a ha => ⟨Nat.lt_of_lt_of_le ha hsize, .inl ha⟩
  refine within_check (within_identReading hheader) fun _ => ?_
  refine within_check (within_readU16 (ehdr_field hheader (by decide))) fun _ => ?_
  refine within_check (within_readU16 (ehdr_field hheader (by decide))) fun _ => ?_
  refine within_check (within_readU16 (ehdr_field hheader (by decide))) fun _ => ?_
  refine within_check (within_phdrBoundsReading imageSize hheader) fun hbounds => ?_
  rw [not_not, value_phdrBoundsReading, m11ValidatePhdrBounds_ok_iff] at hbounds
  refine within_check (within_readU64 (ehdr_field hheader (by decide))) fun _ => ?_
  refine within_bind (within_readU64 (ehdr_field hheader (by decide))) ?_
  refine within_bind (within_readU16 (ehdr_field hheader (by decide))) ?_
  rw [value_readU64, value_readU16]
  -- The table ends inside the image, without overflow.
  refine within_bind (within_segmentsReading imageSize region _ _ _ fun a hlow hhigh =>
    ⟨Nat.lt_of_lt_of_le hhigh hbounds.2.2, .inr ⟨hlow, hhigh⟩⟩) ?_
  refine within_ite (fun _ => within_pure _) fun _ => ?_
  exact within_ite (fun _ => within_pure _) fun _ => within_pure _

end Reads

/-- The loader reads bytes of the two kinds of headers only, all of them in the image, and none
of an image that is too small for a file header; so nothing else in the image matters. -/
theorem m11Elf64PlanLoad_reads (image : ByteMem) (imageSize : UInt64) (region : M11UserRegion)
    (outPlan : M11ProcessImagePlan) :
    m11Elf64PlanLoad (some image) imageSize region (some outPlan) =
        (some ((imageReading imageSize region outPlan).value image).1,
          ((imageReading imageSize region outPlan).value image).2) ∧
      (∀ addr ∈ (imageReading imageSize region outPlan).reads image,
        addr < imageSize.toNat ∧ InHeaders image addr) ∧
      (imageSize.toNat < 64 → (imageReading imageSize region outPlan).reads image = []) ∧
      ∀ image' : ByteMem,
        (∀ addr, addr < imageSize.toNat → InHeaders image addr → image' addr = image addr) →
        m11Elf64PlanLoad (some image') imageSize region (some outPlan) =
          m11Elf64PlanLoad (some image) imageSize region (some outPlan) := by
  have hwithin := within_imageReading image imageSize region outPlan
  have hload : ∀ image : ByteMem,
      m11Elf64PlanLoad (some image) imageSize region (some outPlan) =
        (some ((imageReading imageSize region outPlan).value image).1,
          ((imageReading imageSize region outPlan).value image).2) := by
    intro image
    rw [value_imageReading]
    rfl
  refine ⟨hload image, hwithin, fun hsmall => ?_, fun image' hagree => ?_⟩
  · have hrefused : imageSize < UInt64.ofNat ehdrSize := UInt64.lt_iff_toNat_lt.mpr hsmall
    rw [imageReading, if_pos hrefused, reads_pure]
  · have hsame : (imageReading imageSize region outPlan).value image' =
        (imageReading imageSize region outPlan).value image := by
      apply Reading.value_congr
      intro addr haddr
      obtain ⟨hinside, hheaders⟩ := hwithin addr haddr
      exact hagree addr hinside hheaders
    rw [hload, hload, hsame]

/-- The bytes behind the headers do not matter. -/
theorem m11Elf64PlanLoad_reads_minimalImage :
    m11Elf64PlanLoad (some (writeLE minimalImage 200 8 0xff)) 256 ⟨0x400000, 0x800000⟩
        (some ⟨0, 0, fun _ => zeroSegment⟩) =
      m11Elf64PlanLoad (some minimalImage) 256 ⟨0x400000, 0x800000⟩
        (some ⟨0, 0, fun _ => zeroSegment⟩) := by
  have hreads := m11Elf64PlanLoad_reads minimalImage 256 ⟨0x400000, 0x800000⟩
    ⟨0, 0, fun _ => zeroSegment⟩
  have hend : (readEhdr minimalImage).ePhoff.toNat +
      phdrSize * (readEhdr minimalImage).ePhnum.toNat = 120 := by
    decide
  refine hreads.2.2.2 _ fun addr _ hheaders => writeLE_outside (.inl ?_)
  rcases hheaders with hfile | ⟨-, htable⟩
  · exact Nat.lt_of_lt_of_le hfile (by decide)
  · rw [hend] at htable
    omega

end Mcsos.ElfReads

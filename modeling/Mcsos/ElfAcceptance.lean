import Mcsos.ElfModel
import Mcsos.WordArithmetic

namespace Mcsos.ElfAcceptance

open Mcsos.ByteMemory
open Mcsos.ElfModel
open Mcsos.WordArithmetic

/-- A user region that holds the `size > 0` bytes from `base`. -/
structure RangeInside (region : M11UserRegion) (base size : Nat) : Prop where
  region_pos : region.base.toNat < region.limit.toNat
  size_pos : 0 < size
  above : region.base.toNat ≤ base
  below : base + size ≤ region.limit.toNat

structure AcceptableSegment (imageSize : Nat) (region : M11UserRegion) (ph : M11Elf64Phdr) :
    Prop where
  flags : ph.pFlags.toNat < 8
  notBoth : ¬(ph.pFlags.toNat.testBit 1 = true ∧ ph.pFlags.toNat.testBit 0 = true)
  filesz : ph.pFilesz.toNat ≤ ph.pMemsz.toNat
  align : ph.pAlign.toNat = 0 ∨ ph.pAlign.toNat = 1 ∨
    ph.pAlign.toNat.isPowerOfTwo ∧
      ph.pVaddr.toNat % ph.pAlign.toNat = ph.pOffset.toNat % ph.pAlign.toNat
  fileBytes : ph.pOffset.toNat + ph.pFilesz.toNat ≤ imageSize
  range : RangeInside region ph.pVaddr.toNat ph.pMemsz.toNat

/-- The `PT_LOAD` headers among the `count` program headers from `addr`, in the
order of the file. -/
def loadHeaders (image : ByteMem) (addr count : Nat) : List M11Elf64Phdr :=
  ((List.range count).map fun i => readPhdr image (addr + phdrSize * i)).filter
    fun ph => ph.pType == m11PtLoad

structure AcceptableHeader (eh : M11Elf64Ehdr) (imageSize : Nat) (region : M11UserRegion) :
    Prop where
  magic : eh.eIdent 0 = 0x7f ∧ eh.eIdent 1 = 0x45 ∧ eh.eIdent 2 = 0x4c ∧ eh.eIdent 3 = 0x46
  elfClass : eh.eIdent 4 = 2
  endian : eh.eIdent 5 = 1
  version : eh.eIdent 6 = 1 ∧ eh.eVersion = 1
  type : eh.eType = 2 ∨ eh.eType = 3
  machine : eh.eMachine = 62
  ehsize : eh.eEhsize.toNat = 64
  phnum : 0 < eh.ePhnum.toNat
  phentsize : eh.ePhentsize.toNat = 56
  phdrs : eh.ePhoff.toNat + 56 * eh.ePhnum.toNat ≤ imageSize
  entry : region.base.toNat < region.limit.toNat ∧ region.base.toNat ≤ eh.eEntry.toNat ∧
    eh.eEntry.toNat < region.limit.toNat

/-- The `PT_LOAD` headers of the program-header table of an image. -/
def imageSegments (image : ByteMem) : List M11Elf64Phdr :=
  loadHeaders image (readEhdr image).ePhoff.toNat (readEhdr image).ePhnum.toNat

structure AcceptableImage (image : ByteMem) (imageSize : Nat) (region : M11UserRegion) :
    Prop where
  size : 64 ≤ imageSize
  header : AcceptableHeader (readEhdr image) imageSize region
  count : 1 ≤ (imageSegments image).length ∧ (imageSegments image).length ≤ 8
  segments : ∀ ph ∈ imageSegments image, AcceptableSegment imageSize region ph

theorem m11AddOverflowU64_eq_some {a b r : UInt64} :
    m11AddOverflowU64 a b = some r ↔
      a.toNat + b.toNat < 2 ^ 64 ∧ r.toNat = a.toNat + b.toNat := by
  have ha := a.toNat_lt
  have hb := b.toNat_lt
  have hsum := UInt64.toNat_add a b
  unfold m11AddOverflowU64
  dsimp only
  split
  case isTrue hwrap =>
    rw [UInt64.lt_iff_toNat_lt] at hwrap
    constructor
    · intro h
      cases h
    · rintro ⟨hlt, -⟩
      omega
  case isFalse hwrap =>
    rw [UInt64.lt_iff_toNat_lt] at hwrap
    rw [Option.some_inj, ← UInt64.toNat_inj]
    omega

theorem m11AddOverflowU64_eq_none {a b : UInt64} (h : m11AddOverflowU64 a b = none) :
    2 ^ 64 ≤ a.toNat + b.toNat := by
  by_contra hlt
  have hsum : (a + b).toNat = a.toNat + b.toNat := by
    rw [UInt64.toNat_add]
    exact Nat.mod_eq_of_lt (by omega)
  rw [m11AddOverflowU64_eq_some.mpr ⟨by omega, hsum⟩] at h
  cases h

theorem check_ok_iff {p : Prop} [Decidable p] {err rest : M11Code} (herr : err ≠ .ok) :
    (if p then err else rest) = .ok ↔ ¬p ∧ rest = .ok := by
  split
  case isTrue h => simp [h, herr]
  case isFalse h => simp [h]

theorem m11ValidateUserRange_ok_iff {region : M11UserRegion} {base size : UInt64} :
    m11ValidateUserRange region base size = .ok ↔
      RangeInside region base.toNat size.toNat := by
  have hlimit := region.limit.toNat_lt
  have hzero : size = 0 ↔ size.toNat = 0 := UInt64.toNat_inj.symm
  rw [m11ValidateUserRange, check_ok_iff (by decide), check_ok_iff (by decide), ge_iff_le,
    UInt64.le_iff_toNat_le, hzero]
  rcases hsum : m11AddOverflowU64 base size with _ | last
  · have hbig := m11AddOverflowU64_eq_none hsum
    constructor
    · rintro ⟨-, -, hcode⟩
      cases hcode
    · rintro ⟨-, -, -, hbelow⟩
      omega
  · obtain ⟨-, hlast⟩ := m11AddOverflowU64_eq_some.mp hsum
    dsimp only
    rw [check_ok_iff (by decide), gt_iff_lt, UInt64.lt_iff_toNat_lt, UInt64.lt_iff_toNat_lt,
      UInt64.le_iff_toNat_le]
    constructor
    · rintro ⟨hregion, hsize, hrange, -⟩
      exact ⟨by omega, by omega, by omega, by omega⟩
    · rintro ⟨hregion, hsize, habove, hbelow⟩
      exact ⟨by omega, by omega, by omega, rfl⟩

theorem m11ValidateIdent_ok_iff {eh : M11Elf64Ehdr} :
    m11ValidateIdent eh = .ok ↔
      (eh.eIdent 0 = 0x7f ∧ eh.eIdent 1 = 0x45 ∧ eh.eIdent 2 = 0x4c ∧ eh.eIdent 3 = 0x46) ∧
        eh.eIdent 4 = 2 ∧ eh.eIdent 5 = 1 ∧ eh.eIdent 6 = 1 ∧ eh.eVersion = 1 := by
  rw [m11ValidateIdent, check_ok_iff (by decide), check_ok_iff (by decide),
    check_ok_iff (by decide), check_ok_iff (by decide)]
  simp only [not_or, not_not, and_true]

theorem m11ValidatePhdrBounds_ok_iff {eh : M11Elf64Ehdr} {imageSize : UInt64} :
    m11ValidatePhdrBounds eh imageSize = .ok ↔
      0 < eh.ePhnum.toNat ∧ eh.ePhentsize.toNat = 56 ∧
        eh.ePhoff.toNat + 56 * eh.ePhnum.toNat ≤ imageSize.toNat := by
  have hnum := eh.ePhnum.toNat_lt
  have hsize := imageSize.toNat_lt
  have hzero : 0 < eh.ePhnum.toNat ↔ ¬eh.ePhnum = 0 := by
    rw [Nat.pos_iff_ne_zero]
    exact not_congr (UInt16.toNat_inj (b := 0))
  have hent : eh.ePhentsize = UInt16.ofNat phdrSize ↔ eh.ePhentsize.toNat = 56 :=
    UInt16.toNat_inj.symm
  rw [m11ValidatePhdrBounds, check_ok_iff (by decide), check_ok_iff (by decide), not_not, hent,
    hzero]
  refine and_congr_right fun hnone => and_congr_right fun hentsize => ?_
  have hpos := hzero.mpr hnone
  have htable : (eh.ePhentsize.toUInt64 * eh.ePhnum.toUInt64).toNat = 56 * eh.ePhnum.toNat := by
    rw [UInt64.toNat_mul, UInt16.toNat_toUInt64, UInt16.toNat_toUInt64, hentsize]
    exact Nat.mod_eq_of_lt (by omega)
  -- The product of two 16-bit values cannot wrap, so the division test never fails.
  have hdivides : ¬(eh.ePhnum ≠ 0 ∧
      eh.ePhentsize.toUInt64 * eh.ePhnum.toUInt64 / eh.ePhnum.toUInt64 ≠
        eh.ePhentsize.toUInt64) := by
    rintro ⟨-, hne⟩
    apply hne
    rw [← UInt64.toNat_inj, UInt64.toNat_div, htable, UInt16.toNat_toUInt64,
      UInt16.toNat_toUInt64, hentsize]
    exact Nat.mul_div_cancel _ hpos
  dsimp only
  rw [if_neg hdivides]
  rcases hsum : m11AddOverflowU64 eh.ePhoff (eh.ePhentsize.toUInt64 * eh.ePhnum.toUInt64) with
    _ | phEnd
  · have hbig := m11AddOverflowU64_eq_none hsum
    constructor
    · intro hcode
      cases hcode
    · intro hle
      omega
  · obtain ⟨-, hlast⟩ := m11AddOverflowU64_eq_some.mp hsum
    dsimp only
    rw [check_ok_iff (by decide), gt_iff_lt, gt_iff_lt, UInt64.lt_iff_toNat_lt,
      UInt64.lt_iff_toNat_lt]
    simp only [and_true]
    omega

theorem flagBits_eq_zero_iff (flags : UInt32) :
    flags &&& ~~~(m11PfR ||| m11PfW ||| m11PfX) = 0 ↔ flags.toNat < 8 := by
  have hmask : (~~~(m11PfR ||| m11PfW ||| m11PfX)).toNat = 2 ^ 32 - 2 ^ 3 := by decide
  have hflags := flags.toNat_lt
  rw [← UInt32.toNat_inj, UInt32.toNat_and, hmask, and_highMask 3 32 (by omega) hflags]
  show flags.toNat / 2 ^ 3 * 2 ^ 3 = 0 ↔ flags.toNat < 8
  omega

theorem flagBit_ne_zero_iff (flags mask : UInt32) (i : Nat) (hmask : mask.toNat = 2 ^ i) :
    flags &&& mask ≠ 0 ↔ flags.toNat.testBit i = true := by
  rw [ne_eq, ← UInt32.toNat_inj, UInt32.toNat_and, hmask, Nat.and_two_pow]
  cases flags.toNat.testBit i <;> simp

theorem m11IsPowerOfTwoU64_iff (v : UInt64) :
    m11IsPowerOfTwoU64 v = true ↔ v.toNat.isPowerOfTwo := by
  have hzero : v = 0 ↔ v.toNat = 0 := UInt64.toNat_inj.symm
  rw [← Nat.ne_zero_and_sub_one_eq_zero_iff_isPowerOfTwo, m11IsPowerOfTwoU64, Bool.and_eq_true,
    bne_iff_ne, beq_iff_eq, ne_eq, hzero]
  refine and_congr_right fun hne => ?_
  have hle : (1 : UInt64) ≤ v := UInt64.le_iff_toNat_le.mpr (Nat.one_le_iff_ne_zero.mpr hne)
  rw [← UInt64.toNat_inj, UInt64.toNat_and, UInt64.toNat_sub_of_le v 1 hle]
  rfl

theorem m11ValidateLoadSegment_ok_iff {ph : M11Elf64Phdr} {imageSize : UInt64}
    {region : M11UserRegion} :
    m11ValidateLoadSegment ph imageSize region = .ok ↔
      AcceptableSegment imageSize.toNat region ph := by
  have hsize := imageSize.toNat_lt
  have hzero : ph.pAlign = 0 ↔ ph.pAlign.toNat = 0 := UInt64.toNat_inj.symm
  have hone : ph.pAlign = 1 ↔ ph.pAlign.toNat = 1 := UInt64.toNat_inj.symm
  have hmod : ph.pVaddr % ph.pAlign = ph.pOffset % ph.pAlign ↔
      ph.pVaddr.toNat % ph.pAlign.toNat = ph.pOffset.toNat % ph.pAlign.toNat := by
    rw [← UInt64.toNat_inj, UInt64.toNat_mod, UInt64.toNat_mod]
  have halign : (¬(ph.pAlign ≠ 0 ∧ ph.pAlign ≠ 1 ∧ m11IsPowerOfTwoU64 ph.pAlign = false) ∧
      ¬(ph.pAlign ≠ 0 ∧ ph.pAlign ≠ 1 ∧ ph.pVaddr % ph.pAlign ≠ ph.pOffset % ph.pAlign)) ↔
      (ph.pAlign.toNat = 0 ∨ ph.pAlign.toNat = 1 ∨ ph.pAlign.toNat.isPowerOfTwo ∧
        ph.pVaddr.toNat % ph.pAlign.toNat = ph.pOffset.toNat % ph.pAlign.toNat) := by
    rw [← m11IsPowerOfTwoU64_iff, ← hmod, ← hzero, ← hone, ← Bool.not_eq_true]
    constructor
    · rintro ⟨hpower, hequal⟩
      by_contra hnone
      rw [not_or, not_or, not_and_or] at hnone
      obtain ⟨hnotzero, hnotone, hnotpower | hnotequal⟩ := hnone
      · exact hpower ⟨hnotzero, hnotone, hnotpower⟩
      · exact hequal ⟨hnotzero, hnotone, hnotequal⟩
    · rintro (hnull | hunit | ⟨hpower, hequal⟩)
      · exact ⟨fun h => h.1 hnull, fun h => h.1 hnull⟩
      · exact ⟨fun h => h.2.1 hunit, fun h => h.2.1 hunit⟩
      · exact ⟨fun h => h.2.2 hpower, fun h => h.2.2 hequal⟩
  rw [m11ValidateLoadSegment, check_ok_iff (by decide), check_ok_iff (by decide),
    check_ok_iff (by decide), check_ok_iff (by decide), check_ok_iff (by decide), not_not,
    flagBits_eq_zero_iff, flagBit_ne_zero_iff ph.pFlags m11PfW 1 rfl,
    flagBit_ne_zero_iff ph.pFlags m11PfX 0 rfl, UInt64.lt_iff_toNat_lt, Nat.not_lt]
  rcases hsum : m11AddOverflowU64 ph.pOffset ph.pFilesz with _ | fileEnd
  · have hbig := m11AddOverflowU64_eq_none hsum
    constructor
    · rintro ⟨-, -, -, -, -, hcode⟩
      cases hcode
    · intro h
      have hfile := h.fileBytes
      omega
  · obtain ⟨-, hlast⟩ := m11AddOverflowU64_eq_some.mp hsum
    dsimp only
    rw [check_ok_iff (by decide), gt_iff_lt, gt_iff_lt, UInt64.lt_iff_toNat_lt,
      UInt64.lt_iff_toNat_lt, m11ValidateUserRange_ok_iff]
    constructor
    · rintro ⟨hflags, hboth, hfilesz, hpow, hcong, hfile, hrange⟩
      exact ⟨hflags, hboth, hfilesz, halign.mp ⟨hpow, hcong⟩, by omega, hrange⟩
    · rintro ⟨hflags, hboth, hfilesz, hal, hfile, hrange⟩
      obtain ⟨hpow, hcong⟩ := halign.mpr hal
      exact ⟨hflags, hboth, hfilesz, hpow, hcong, by omega, hrange⟩

theorem loadHeaders_succ (image : ByteMem) (addr count : Nat) :
    loadHeaders image addr (count + 1) =
      if (readPhdr image addr).pType = m11PtLoad then
        readPhdr image addr :: loadHeaders image (addr + phdrSize) count
      else loadHeaders image (addr + phdrSize) count := by
  have hshift : ∀ i, addr + phdrSize * (i + 1) = addr + phdrSize + phdrSize * i := by
    intro i
    rw [Nat.mul_succ]
    omega
  simp only [loadHeaders, List.range_succ_eq_map, List.map_cons, List.map_map, Nat.mul_zero,
    Nat.add_zero, List.filter_cons, Function.comp_def, hshift, beq_iff_eq]

section Loop

variable {image : ByteMem} {imageSize : UInt64} {region : M11UserRegion}

theorem planSegments_ok_iff {plan : M11ProcessImagePlan} {addr count : Nat}
    (hroom : plan.segmentCount ≤ m11MaxLoadSegments) :
    (planSegments image imageSize region plan addr count).2 = .ok ↔
      plan.segmentCount + (loadHeaders image addr count).length ≤ m11MaxLoadSegments ∧
        ∀ ph ∈ loadHeaders image addr count, AcceptableSegment imageSize.toNat region ph := by
  induction count generalizing plan addr with
  | zero => simp [planSegments, loadHeaders, hroom]
  | succ count ih =>
      rw [planSegments, loadHeaders_succ]
      by_cases htype : (readPhdr image addr).pType = m11PtLoad
      · rw [if_neg (not_not.mpr htype), if_pos htype]
        rw [List.length_cons, List.forall_mem_cons]
        by_cases hfull : m11MaxLoadSegments ≤ plan.segmentCount
        · rw [if_pos hfull]
          constructor
          · intro hcode
            cases hcode
          · rintro ⟨hfits, -⟩
            omega
        · rw [if_neg hfull]
          have hnext : (plan.addSegment (readPhdr image addr)).segmentCount =
              plan.segmentCount + 1 := rfl
          by_cases hcheck : m11ValidateLoadSegment (readPhdr image addr) imageSize region = .ok
          · rw [hcheck]
            dsimp only
            rw [ih (by omega), hnext, ← m11ValidateLoadSegment_ok_iff]
            constructor
            · rintro ⟨hfits, hrest⟩
              exact ⟨by omega, hcheck, hrest⟩
            · rintro ⟨hfits, -, hrest⟩
              exact ⟨by omega, hrest⟩
          · constructor
            · intro hcode
              split at hcode
              case h_1 heq => exact absurd heq hcheck
              case h_2 heq => exact absurd hcode hcheck
            · rintro ⟨-, hhead, -⟩
              exact absurd (m11ValidateLoadSegment_ok_iff.mpr hhead) hcheck
      · rw [if_pos htype, if_neg htype]
        exact ih hroom

theorem planSegments_plan {plan : M11ProcessImagePlan} {addr count : Nat}
    (hok : (planSegments image imageSize region plan addr count).2 = .ok) :
    (planSegments image imageSize region plan addr count).1 =
      (loadHeaders image addr count).foldl M11ProcessImagePlan.addSegment plan := by
  induction count generalizing plan addr with
  | zero => rfl
  | succ count ih =>
      rw [planSegments] at hok ⊢
      rw [loadHeaders_succ]
      split at hok
      case isTrue htype =>
        rw [if_pos htype, if_neg htype]
        exact ih hok
      case isFalse htype =>
        rw [if_neg htype, if_pos (not_not.mp htype), List.foldl_cons]
        split at hok
        · cases hok
        case isFalse hcount =>
          rw [if_neg hcount]
          split at hok
          case h_1 hcheck => exact ih hok
          case h_2 hcheck => exact absurd hok hcheck

end Loop

theorem foldl_addSegment (phs : List M11Elf64Phdr) (plan : M11ProcessImagePlan) :
    (phs.foldl M11ProcessImagePlan.addSegment plan).entry = plan.entry ∧
      (phs.foldl M11ProcessImagePlan.addSegment plan).segmentCount =
        plan.segmentCount + phs.length ∧
      ∀ i, (phs.foldl M11ProcessImagePlan.addSegment plan).segments i =
        if i < plan.segmentCount then plan.segments i
        else (phs[i - plan.segmentCount]?.map segmentOf).getD (plan.segments i) := by
  induction phs generalizing plan with
  | nil => simp
  | cons ph phs ih =>
      obtain ⟨hentry, hcount, hslots⟩ := ih (plan.addSegment ph)
      rw [List.foldl_cons]
      refine ⟨hentry, ?_, fun i => ?_⟩
      · rw [hcount, List.length_cons, M11ProcessImagePlan.addSegment]
        dsimp only
        omega
      · rw [hslots, M11ProcessImagePlan.addSegment]
        dsimp only
        rcases Nat.lt_trichotomy i plan.segmentCount with hlt | rfl | hgt
        · rw [if_pos (by omega), if_pos hlt, Function.update_of_ne (by omega)]
        · rw [if_pos (by omega), if_neg (by omega), Function.update_self, Nat.sub_self]
          rfl
        · obtain ⟨d, rfl⟩ : ∃ d, i = plan.segmentCount + 1 + d := Nat.exists_eq_add_of_le hgt
          rw [if_neg (by omega), if_neg (by omega), Function.update_of_ne (by omega),
            Nat.add_sub_cancel_left,
            show plan.segmentCount + 1 + d - plan.segmentCount = d + 1 by omega]
          rfl

theorem acceptableHeader_iff {eh : M11Elf64Ehdr} {imageSize : UInt64} {region : M11UserRegion} :
    AcceptableHeader eh imageSize.toNat region ↔
      m11ValidateIdent eh = .ok ∧ (eh.eType = 2 ∨ eh.eType = 3) ∧ eh.eMachine = 62 ∧
        eh.eEhsize = UInt16.ofNat ehdrSize ∧ m11ValidatePhdrBounds eh imageSize = .ok ∧
        m11ValidateUserRange region eh.eEntry 1 = .ok := by
  have hehsize : eh.eEhsize = UInt16.ofNat ehdrSize ↔ eh.eEhsize.toNat = 64 :=
    UInt16.toNat_inj.symm
  have hone : (1 : UInt64).toNat = 1 := rfl
  rw [m11ValidateIdent_ok_iff, m11ValidatePhdrBounds_ok_iff, m11ValidateUserRange_ok_iff, hehsize,
    hone]
  constructor
  · rintro ⟨hmagic, hclass, hendian, ⟨hident, hversion⟩, htype, hmachine, hsize, hnum, hent, hph,
      hregion, habove, hbelow⟩
    exact ⟨⟨hmagic, hclass, hendian, hident, hversion⟩, htype, hmachine, hsize,
      ⟨hnum, hent, hph⟩, ⟨hregion, by omega, habove, by omega⟩⟩
  · rintro ⟨⟨hmagic, hclass, hendian, hident, hversion⟩, htype, hmachine, hsize,
      ⟨hnum, hent, hph⟩, ⟨hregion, -, habove, hbelow⟩⟩
    exact ⟨hmagic, hclass, hendian, ⟨hident, hversion⟩, htype, hmachine, hsize, hnum, hent, hph,
      hregion, habove, by omega⟩

theorem planCheck_ok_iff {p : Prop} [Decidable p] {plan : M11ProcessImagePlan} {err : M11Code}
    {rest : M11ProcessImagePlan × M11Code} (herr : p → err ≠ .ok) :
    (if p then (plan, err) else rest).2 = .ok ↔ ¬p ∧ rest.2 = .ok := by
  split
  case isTrue h => simp [h, herr h]
  case isFalse h => simp [h]

section Loader

variable (image : ByteMem) (imageSize : UInt64) (region : M11UserRegion)
  (outPlan : M11ProcessImagePlan)

/-- The plan with which the loop starts: cleared, with the entry point set. -/
def entryPlan : M11ProcessImagePlan :=
  { m11ZeroPlan outPlan with entry := (readEhdr image).eEntry }

/-- The loop of the loader over the program-header table. -/
def imageLoop : M11ProcessImagePlan × M11Code :=
  planSegments image imageSize region (entryPlan image outPlan)
    (readEhdr image).ePhoff.toNat (readEhdr image).ePhnum.toNat

theorem imageLoop_ok_iff :
    (imageLoop image imageSize region outPlan).2 = .ok ↔
      (imageSegments image).length ≤ m11MaxLoadSegments ∧
        ∀ ph ∈ imageSegments image, AcceptableSegment imageSize.toNat region ph := by
  have hroom : (entryPlan image outPlan).segmentCount ≤ m11MaxLoadSegments := Nat.zero_le _
  have hzero : (entryPlan image outPlan).segmentCount = 0 := rfl
  rw [imageLoop, planSegments_ok_iff hroom, hzero, Nat.zero_add, imageSegments]

theorem imageLoop_plan (hok : (imageLoop image imageSize region outPlan).2 = .ok) :
    (imageLoop image imageSize region outPlan).1.entry = (readEhdr image).eEntry ∧
      (imageLoop image imageSize region outPlan).1.segmentCount = (imageSegments image).length ∧
      ∀ i, i < m11MaxLoadSegments →
        (imageLoop image imageSize region outPlan).1.segments i =
          ((imageSegments image)[i]?.map segmentOf).getD zeroSegment := by
  have hplan : (imageLoop image imageSize region outPlan).1 =
      (imageSegments image).foldl M11ProcessImagePlan.addSegment (entryPlan image outPlan) :=
    planSegments_plan hok
  have hzero : (entryPlan image outPlan).segmentCount = 0 := rfl
  obtain ⟨hentry, hcount, hslots⟩ := foldl_addSegment (imageSegments image)
    (entryPlan image outPlan)
  rw [hplan]
  refine ⟨hentry, by rw [hcount, hzero, Nat.zero_add], fun i hi => ?_⟩
  have hslot : (entryPlan image outPlan).segments i = zeroSegment := if_pos hi
  rw [hslots, hzero, if_neg (Nat.not_lt_zero i), Nat.sub_zero, hslot]

theorem planImage_ok_iff_loop :
    (planImage image imageSize region outPlan).2 = .ok ↔
      64 ≤ imageSize.toNat ∧ AcceptableHeader (readEhdr image) imageSize.toNat region ∧
        (imageLoop image imageSize region outPlan).2 = .ok ∧
        (imageLoop image imageSize region outPlan).1.segmentCount ≠ 0 := by
  have hsize : ¬imageSize < UInt64.ofNat ehdrSize ↔ 64 ≤ imageSize.toNat := by
    rw [UInt64.lt_iff_toNat_lt, Nat.not_lt]
    rfl
  rw [acceptableHeader_iff, ← hsize, planImage]
  rw [planCheck_ok_iff (by simp), planCheck_ok_iff id, planCheck_ok_iff (by simp),
    planCheck_ok_iff (by simp), planCheck_ok_iff (by simp), planCheck_ok_iff id,
    planCheck_ok_iff (by simp)]
  rw [← entryPlan, ← imageLoop]
  generalize imageLoop image imageSize region outPlan = loop
  obtain ⟨plan, rc⟩ := loop
  dsimp only
  rw [planCheck_ok_iff id, planCheck_ok_iff (by simp)]
  simp only [not_not, not_and_or, and_assoc, and_true, ne_eq]

theorem planImage_plan (hok : (planImage image imageSize region outPlan).2 = .ok) :
    (planImage image imageSize region outPlan).1 =
      (imageLoop image imageSize region outPlan).1 := by
  obtain ⟨hsize, hheader, hloop, hcount⟩ := (planImage_ok_iff_loop _ _ _ _).mp hok
  obtain ⟨hident, htype, hmachine, hehsize, hbounds, hentry⟩ := acceptableHeader_iff.mp hheader
  have hnotSmall : ¬imageSize < UInt64.ofNat ehdrSize := by
    rw [UInt64.lt_iff_toNat_lt]
    exact Nat.not_lt.mpr hsize
  have hnotType : ¬((readEhdr image).eType ≠ 2 ∧ (readEhdr image).eType ≠ 3) := by
    rintro ⟨h2, h3⟩
    exact htype.elim h2 h3
  rw [planImage]
  simp only [if_neg hnotSmall, hident, if_neg hnotType, hmachine, hehsize, hbounds, hentry, ne_eq,
    not_true_eq_false, if_false]
  rw [← entryPlan, ← imageLoop]
  generalize imageLoop image imageSize region outPlan = loop
  obtain ⟨plan, rc⟩ := loop
  dsimp only
  split
  · rfl
  · split <;> rfl

theorem m11Elf64PlanLoad_plan
    (hok : (m11Elf64PlanLoad (some image) imageSize region (some outPlan)).2 = .ok) :
    ((imageSegments image).length ≤ m11MaxLoadSegments ∧
      ∀ ph ∈ imageSegments image, AcceptableSegment imageSize.toNat region ph) ∧
    ∃ plan, (m11Elf64PlanLoad (some image) imageSize region (some outPlan)).1 = some plan ∧
      plan.entry = (readEhdr image).eEntry ∧
      plan.segmentCount = (imageSegments image).length ∧
      ∀ i, i < m11MaxLoadSegments →
        plan.segments i = ((imageSegments image)[i]?.map segmentOf).getD zeroSegment := by
  have hplanned : (planImage image imageSize region outPlan).2 = .ok := hok
  obtain ⟨-, -, hloop, -⟩ := (planImage_ok_iff_loop image imageSize region outPlan).mp hplanned
  refine ⟨(imageLoop_ok_iff image imageSize region outPlan).mp hloop,
    (imageLoop image imageSize region outPlan).1, ?_,
    imageLoop_plan image imageSize region outPlan hloop⟩
  exact congrArg some (planImage_plan image imageSize region outPlan hplanned)

/-- The loader returns `M11_OK` exactly on the acceptable images, and then the plan
holds the entry point and the `PT_LOAD` headers in the order of the file. -/
theorem m11Elf64PlanLoad_ok_iff :
    ((m11Elf64PlanLoad (some image) imageSize region (some outPlan)).2 = .ok ↔
      AcceptableImage image imageSize.toNat region) ∧
    ((m11Elf64PlanLoad (some image) imageSize region (some outPlan)).2 = .ok →
      ∃ plan, (m11Elf64PlanLoad (some image) imageSize region (some outPlan)).1 = some plan ∧
        plan.entry = (readEhdr image).eEntry ∧
        plan.segmentCount = (imageSegments image).length ∧
        ∀ i, i < m11MaxLoadSegments →
          plan.segments i = ((imageSegments image)[i]?.map segmentOf).getD zeroSegment) := by
  have hcode : (m11Elf64PlanLoad (some image) imageSize region (some outPlan)).2 =
      (planImage image imageSize region outPlan).2 := rfl
  have hloop := imageLoop_ok_iff image imageSize region outPlan
  rw [hcode, planImage_ok_iff_loop]
  refine ⟨?_, ?_⟩
  · constructor
    · rintro ⟨hsize, hheader, hok, hcount⟩
      obtain ⟨-, hlength, -⟩ := imageLoop_plan image imageSize region outPlan hok
      rw [hlength] at hcount
      exact ⟨hsize, hheader, ⟨Nat.one_le_iff_ne_zero.mpr hcount, (hloop.mp hok).1⟩,
        (hloop.mp hok).2⟩
    · rintro ⟨hsize, hheader, ⟨hsome, hfits⟩, hsegments⟩
      have hok := hloop.mpr ⟨hfits, hsegments⟩
      obtain ⟨-, hlength, -⟩ := imageLoop_plan image imageSize region outPlan hok
      exact ⟨hsize, hheader, hok, by omega⟩
  · intro haccepted
    exact (m11Elf64PlanLoad_plan image imageSize region outPlan
      ((planImage_ok_iff_loop image imageSize region outPlan).mpr haccepted)).2

end Loader

/-- An image of one read-only segment that covers its two headers. -/
def minimalImage : ByteMem :=
  [(0, 8, 0x00010102464c457f), (16, 2, 2), (18, 2, 62), (20, 4, 1), (24, 8, 0x400000),
    (32, 8, 64), (52, 2, 64), (54, 2, 56), (56, 2, 1), (64, 4, 1), (68, 4, 4),
    (80, 8, 0x400000), (96, 8, 120), (104, 8, 120), (112, 8, 4096)].foldl
    (fun m field => writeLE m field.1 field.2.1 field.2.2) fun _ => 0

example : (m11Elf64PlanLoad (some minimalImage) 120 ⟨0x400000, 0x800000⟩
    (some ⟨0, 0, fun _ => zeroSegment⟩)).2 = .ok := by
  decide

end Mcsos.ElfAcceptance

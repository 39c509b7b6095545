import Mcsos.ElfAcceptance

namespace Mcsos.ElfRejected

open Mcsos.ByteMemory
open Mcsos.ElfAcceptance
open Mcsos.ElfModel

/-- A plan with nothing in it. -/
structure EmptyPlan (plan : M11ProcessImagePlan) : Prop where
  entry : plan.entry = 0
  segmentCount : plan.segmentCount = 0
  segments : ∀ i, i < m11MaxLoadSegments → plan.segments i = zeroSegment

theorem emptyPlan_zeroPlan (plan : M11ProcessImagePlan) : EmptyPlan (m11ZeroPlan plan) :=
  ⟨rfl, rfl, fun _ hi => if_pos hi⟩

section Loader

variable {image : ByteMem} {imageSize : UInt64} {region : M11UserRegion}

theorem planSegments_failed {plan : M11ProcessImagePlan} {addr count : Nat}
    (hfail : (planSegments image imageSize region plan addr count).2 ≠ .ok) :
    EmptyPlan (planSegments image imageSize region plan addr count).1 := by
  induction count generalizing plan addr with
  | zero => exact absurd rfl hfail
  | succ count ih =>
      rw [planSegments] at hfail ⊢
      split at hfail
      case isTrue htype =>
        rw [if_pos htype]
        exact ih hfail
      case isFalse htype =>
        rw [if_neg htype]
        split at hfail
        case isTrue hfull =>
          rw [if_pos hfull]
          exact emptyPlan_zeroPlan plan
        case isFalse hroom =>
          rw [if_neg hroom]
          split at hfail
          case h_1 hcheck => exact ih hfail
          case h_2 hcheck => exact emptyPlan_zeroPlan plan

/-- The image has a header that passes all checks. -/
def HeaderAccepted (image : ByteMem) (imageSize : UInt64) (region : M11UserRegion) : Prop :=
  64 ≤ imageSize.toNat ∧ AcceptableHeader (readEhdr image) imageSize.toNat region

theorem check_cases {failed accepted : Prop} [Decidable failed] {plan final : M11ProcessImagePlan}
    {rc : M11Code} {rest : M11ProcessImagePlan × M11Code} (hfailed : failed → ¬accepted)
    (hrest : ¬failed → ¬accepted ∧ rest.1 = plan ∨ accepted ∧ rest.1 = final) :
    ¬accepted ∧ (if failed then (plan, rc) else rest).1 = plan ∨
      accepted ∧ (if failed then (plan, rc) else rest).1 = final := by
  by_cases h : failed
  · rw [if_pos h]
    exact .inl ⟨hfailed h, rfl⟩
  · rw [if_neg h]
    exact hrest h

theorem planImage_cases (image : ByteMem) (imageSize : UInt64) (region : M11UserRegion)
    (outPlan : M11ProcessImagePlan) :
    ¬HeaderAccepted image imageSize region ∧
        (planImage image imageSize region outPlan).1 = m11ZeroPlan outPlan ∨
      HeaderAccepted image imageSize region ∧
        (planImage image imageSize region outPlan).1 =
          (imageLoop image imageSize region outPlan).1 := by
  have hsize : imageSize < UInt64.ofNat ehdrSize ↔ ¬64 ≤ imageSize.toNat := by
    rw [UInt64.lt_iff_toNat_lt, Nat.not_le]
    rfl
  rw [HeaderAccepted, acceptableHeader_iff, planImage]
  refine check_cases (fun hsmall h => hsize.mp hsmall h.1) fun hlarge => ?_
  refine check_cases (fun hident h => hident h.2.1) fun hident => ?_
  refine check_cases (fun htype h => h.2.2.1.elim htype.1 htype.2) fun htype => ?_
  refine check_cases (fun hmachine h => hmachine h.2.2.2.1) fun hmachine => ?_
  refine check_cases (fun hehsize h => hehsize h.2.2.2.2.1) fun hehsize => ?_
  refine check_cases (fun hbounds h => hbounds h.2.2.2.2.2.1) fun hbounds => ?_
  refine check_cases (fun hentry h => hentry h.2.2.2.2.2.2) fun hentry => ?_
  rw [hsize, not_not] at hlarge
  rw [not_not] at hident hmachine hehsize hbounds hentry
  rw [not_and_or, not_not, not_not] at htype
  refine .inr ⟨⟨hlarge, hident, htype, hmachine, hehsize, hbounds, hentry⟩, ?_⟩
  dsimp only
  rw [← entryPlan, ← imageLoop]
  split
  · rfl
  · split <;> rfl

theorem emptyPlan_imageLoop_iff {outPlan : M11ProcessImagePlan}
    (hok : (imageLoop image imageSize region outPlan).2 = .ok) :
    EmptyPlan (imageLoop image imageSize region outPlan).1 ↔
      imageSegments image = [] ∧ (readEhdr image).eEntry = 0 := by
  obtain ⟨hentry, hcount, hslots⟩ := imageLoop_plan image imageSize region outPlan hok
  constructor
  · intro hempty
    have hzero := hempty.segmentCount
    have hstart := hempty.entry
    rw [hcount] at hzero
    rw [hentry] at hstart
    exact ⟨List.length_eq_zero_iff.mp hzero, hstart⟩
  · rintro ⟨hnone, hzero⟩
    refine ⟨hentry.trans hzero, ?_, fun i hi => ?_⟩
    · rw [hcount, hnone]
      rfl
    · rw [hslots i hi, hnone]
      rfl

end Loader

/-- A rejected image leaves an empty plan, unless it has an acceptable header with an entry point
other than zero and no `PT_LOAD` header: then the entry point stays in the plan. -/
theorem rejected_emptyPlan_iff (image : ByteMem) (imageSize : UInt64) (region : M11UserRegion)
    (outPlan : M11ProcessImagePlan) :
    ((m11Elf64PlanLoad (some image) imageSize region (some outPlan)).2 ≠ .ok →
        ∃ plan, (m11Elf64PlanLoad (some image) imageSize region (some outPlan)).1 = some plan ∧
          EmptyPlan plan) ↔
      ¬(HeaderAccepted image imageSize region ∧ imageSegments image = [] ∧
        (readEhdr image).eEntry ≠ 0) := by
  have hresult : ((m11Elf64PlanLoad (some image) imageSize region (some outPlan)).2 ≠ .ok →
      ∃ plan, (m11Elf64PlanLoad (some image) imageSize region (some outPlan)).1 = some plan ∧
        EmptyPlan plan) ↔
      ((planImage image imageSize region outPlan).2 ≠ .ok →
        EmptyPlan (planImage image imageSize region outPlan).1) := by
    refine imp_congr_right fun _ => ?_
    constructor
    · rintro ⟨plan, heq, hempty⟩
      obtain rfl := Option.some.inj heq
      exact hempty
    · exact fun hempty => ⟨_, rfl, hempty⟩
  have hloop := imageLoop_ok_iff image imageSize region outPlan
  rw [hresult, ne_eq, planImage_ok_iff_loop, ← and_assoc, ← HeaderAccepted]
  rcases planImage_cases image imageSize region outPlan with ⟨hheader, hplan⟩ | ⟨hheader, hplan⟩
  · rw [hplan]
    exact iff_of_true (fun _ => emptyPlan_zeroPlan outPlan) fun hbad => hheader hbad.1
  · rw [hplan, and_iff_right hheader, and_iff_right hheader]
    by_cases hok : (imageLoop image imageSize region outPlan).2 = .ok
    · obtain ⟨-, hcount, -⟩ := imageLoop_plan image imageSize region outPlan hok
      rw [and_iff_right hok, hcount, emptyPlan_imageLoop_iff hok, ne_eq, not_not,
        List.length_eq_zero_iff]
      constructor
      · rintro hclean ⟨hnone, hentry⟩
        exact hentry (hclean hnone).2
      · intro hbad hnone
        exact ⟨hnone, not_not.mp fun hentry => hbad ⟨hnone, hentry⟩⟩
    · refine iff_of_true (fun _ => planSegments_failed hok) ?_
      rintro ⟨hnone, -⟩
      apply hok
      rw [hloop, hnone]
      exact ⟨Nat.zero_le _, fun ph hph => absurd hph List.not_mem_nil⟩

/-- An image whose only program header is not to be loaded. -/
def notLoadedImage : ByteMem := writeLE minimalImage 64 4 0

/-- The image is rejected, and its entry point is in the plan. -/
theorem rejected_entry_notLoadedImage :
    (m11Elf64PlanLoad (some notLoadedImage) 120 ⟨0x400000, 0x800000⟩
        (some ⟨0, 0, fun _ => zeroSegment⟩)).2 = .errSegcount ∧
      ((m11Elf64PlanLoad (some notLoadedImage) 120 ⟨0x400000, 0x800000⟩
        (some ⟨0, 0, fun _ => zeroSegment⟩)).1.map M11ProcessImagePlan.entry) = some 0x400000 ∧
      ¬((m11Elf64PlanLoad (some notLoadedImage) 120 ⟨0x400000, 0x800000⟩
          (some ⟨0, 0, fun _ => zeroSegment⟩)).2 ≠ .ok →
        ∃ plan, (m11Elf64PlanLoad (some notLoadedImage) 120 ⟨0x400000, 0x800000⟩
            (some ⟨0, 0, fun _ => zeroSegment⟩)).1 = some plan ∧ EmptyPlan plan) := by
  have hentry : ((m11Elf64PlanLoad (some notLoadedImage) 120 ⟨0x400000, 0x800000⟩
      (some ⟨0, 0, fun _ => zeroSegment⟩)).1.map M11ProcessImagePlan.entry) = some 0x400000 := by
    decide
  refine ⟨by decide, hentry, fun hclaim => ?_⟩
  obtain ⟨plan, hplan, hempty⟩ := hclaim (by decide)
  rw [hplan, Option.map_some, hempty.entry] at hentry
  exact absurd hentry (by decide)

end Mcsos.ElfRejected

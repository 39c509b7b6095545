import Mcsos.ElfAcceptance

namespace Mcsos.ElfPermissions

open Mcsos.ByteMemory
open Mcsos.ElfModel
open Mcsos.ElfAcceptance

/-- The virtual addresses of a planned segment, in exact integers. -/
def Covers (segment : M11SegmentPlan) (addr : Nat) : Prop :=
  segment.vaddr.toNat ≤ addr ∧ addr < segment.vaddr.toNat + segment.memsz.toNat

def Writable (segment : M11SegmentPlan) : Prop := segment.flags &&& m11PfW ≠ 0

def Executable (segment : M11SegmentPlan) : Prop := segment.flags &&& m11PfX ≠ 0

instance (segment : M11SegmentPlan) (addr : Nat) : Decidable (Covers segment addr) :=
  inferInstanceAs (Decidable (_ ∧ _))

instance (segment : M11SegmentPlan) : Decidable (Writable segment) :=
  inferInstanceAs (Decidable (_ ≠ _))

instance (segment : M11SegmentPlan) : Decidable (Executable segment) :=
  inferInstanceAs (Decidable (_ ≠ _))

/-- No address lies both in a writable and in an executable segment of the plan. -/
def WriteXorExecute (plan : M11ProcessImagePlan) : Prop :=
  ∀ addr i j, i < plan.segmentCount → j < plan.segmentCount →
    Writable (plan.segments i) → Executable (plan.segments j) →
    ¬(Covers (plan.segments i) addr ∧ Covers (plan.segments j) addr)

/-- Two headers with overlapping address ranges. -/
def Overlap (a b : M11Elf64Phdr) : Prop :=
  a.pVaddr.toNat < b.pVaddr.toNat + b.pMemsz.toNat ∧
    b.pVaddr.toNat < a.pVaddr.toNat + a.pMemsz.toNat

/-- Two headers, one writable and the other executable, whose ranges overlap. -/
def Clash (a b : M11Elf64Phdr) : Prop :=
  (Writable (segmentOf a) ∧ Executable (segmentOf b) ∨
      Executable (segmentOf a) ∧ Writable (segmentOf b)) ∧
    Overlap a b

instance (a b : M11Elf64Phdr) : Decidable (Overlap a b) :=
  inferInstanceAs (Decidable (_ ∧ _))

instance (a b : M11Elf64Phdr) : Decidable (Clash a b) :=
  inferInstanceAs (Decidable ((_ ∨ _) ∧ _))

theorem covers_common_iff {a b : M11Elf64Phdr} (ha : 0 < a.pMemsz.toNat)
    (hb : 0 < b.pMemsz.toNat) :
    (∃ addr, Covers (segmentOf a) addr ∧ Covers (segmentOf b) addr) ↔ Overlap a b := by
  unfold Covers segmentOf Overlap
  dsimp only
  constructor
  · rintro ⟨addr, hcovers⟩
    omega
  · intro hoverlap
    refine ⟨max a.pVaddr.toNat b.pVaddr.toNat, ?_⟩
    omega

theorem acceptableSegment_not_both {imageSize : Nat} {region : M11UserRegion} {ph : M11Elf64Phdr}
    (h : AcceptableSegment imageSize region ph) :
    ¬(Writable (segmentOf ph) ∧ Executable (segmentOf ph)) := by
  rintro ⟨hwrite, hexec⟩
  apply h.notBoth
  exact ⟨(flagBit_ne_zero_iff ph.pFlags m11PfW 1 rfl).mp hwrite,
    (flagBit_ne_zero_iff ph.pFlags m11PfX 0 rfl).mp hexec⟩

section Plan

variable {image : ByteMem} {imageSize : UInt64} {region : M11UserRegion}
  {outPlan : M11ProcessImagePlan}

/-- An accepted plan has no segment with both rights, and it keeps them apart at every
address exactly when no two different `PT_LOAD` headers clash. -/
theorem writeXorExecute_iff
    (hok : (m11Elf64PlanLoad (some image) imageSize region (some outPlan)).2 = .ok) :
    ∃ plan, (m11Elf64PlanLoad (some image) imageSize region (some outPlan)).1 = some plan ∧
      (∀ i < plan.segmentCount,
        ¬(Writable (plan.segments i) ∧ Executable (plan.segments i))) ∧
      (WriteXorExecute plan ↔ (imageSegments image).Pairwise fun a b => ¬Clash a b) := by
  obtain ⟨⟨hfits, hheaders⟩, plan, hplan, -, hcount, hslots⟩ :=
    m11Elf64PlanLoad_plan image imageSize region outPlan hok
  have hsegment : ∀ (i : Nat) (hi : i < (imageSegments image).length),
      plan.segments i = segmentOf (imageSegments image)[i] := by
    intro i hi
    rw [hslots i (by omega), List.getElem?_eq_getElem hi]
    rfl
  have hcommon : ∀ (i j : Nat) (hi : i < (imageSegments image).length)
      (hj : j < (imageSegments image).length),
      (∃ addr, Covers (plan.segments i) addr ∧ Covers (plan.segments j) addr) ↔
        Overlap (imageSegments image)[i] (imageSegments image)[j] := by
    intro i j hi hj
    rw [hsegment i hi, hsegment j hj]
    exact covers_common_iff (hheaders _ (List.getElem_mem hi)).range.size_pos
      (hheaders _ (List.getElem_mem hj)).range.size_pos
  refine ⟨plan, hplan, ?_, ?_⟩
  · intro i hi
    rw [hcount] at hi
    rw [hsegment i hi]
    exact acceptableSegment_not_both (hheaders _ (List.getElem_mem hi))
  · rw [List.pairwise_iff_getElem, WriteXorExecute, hcount]
    constructor
    · rintro h i j hi hj - ⟨hrights, hoverlap⟩
      obtain ⟨addr, hcovers⟩ := (hcommon i j hi hj).mpr hoverlap
      rw [← hsegment i hi, ← hsegment j hj] at hrights
      rcases hrights with ⟨hwrite, hexec⟩ | ⟨hexec, hwrite⟩
      · exact h addr i j hi hj hwrite hexec hcovers
      · exact h addr j i hj hi hwrite hexec hcovers.symm
    · intro h addr i j hi hj hwrite hexec hcovers
      have hoverlap := (hcommon i j hi hj).mp ⟨addr, hcovers⟩
      rw [hsegment i hi] at hwrite
      rw [hsegment j hj] at hexec
      rcases Nat.lt_trichotomy i j with hlt | rfl | hgt
      · exact h i j hi hj hlt ⟨.inl ⟨hwrite, hexec⟩, hoverlap⟩
      · exact acceptableSegment_not_both (hheaders _ (List.getElem_mem hi)) ⟨hwrite, hexec⟩
      · exact h j i hj hi hgt ⟨.inr ⟨hexec, hwrite⟩, hoverlap.symm⟩

end Plan

/-- An image of a read-write and a read-execute segment, both of 4096 bytes, the second
at `second`. -/
def twoSegmentImage (second : Nat) : ByteMem :=
  [(0, 8, 0x00010102464c457f), (16, 2, 2), (18, 2, 62), (20, 4, 1), (24, 8, 0x400000),
    (32, 8, 64), (52, 2, 64), (54, 2, 56), (56, 2, 2),
    (64, 4, 1), (68, 4, 6), (80, 8, 0x400000), (104, 8, 4096), (112, 8, 4096),
    (120, 4, 1), (124, 4, 5), (136, 8, second), (160, 8, 4096), (168, 8, 4096)].foldl
    (fun m field => writeLE m field.1 field.2.1 field.2.2) fun _ => 0

def testRegion : M11UserRegion := ⟨0x400000, 0x8000000000⟩

def emptyPlan : M11ProcessImagePlan := ⟨0, 0, fun _ => zeroSegment⟩

theorem writeXorExecute_iff_apart :
    ∃ plan, (m11Elf64PlanLoad (some (twoSegmentImage 0x401000)) 176 testRegion
        (some emptyPlan)).1 = some plan ∧ WriteXorExecute plan := by
  obtain ⟨plan, hplan, -, hiff⟩ := writeXorExecute_iff
    (by decide : (m11Elf64PlanLoad (some (twoSegmentImage 0x401000)) 176 testRegion
      (some emptyPlan)).2 = .ok)
  refine ⟨plan, hplan, hiff.mpr ?_⟩
  decide

theorem not_writeXorExecute_overlapping :
    ∃ plan, m11Elf64PlanLoad (some (twoSegmentImage 0x400000)) 176 testRegion
        (some emptyPlan) = (some plan, .ok) ∧ ¬WriteXorExecute plan := by
  refine ⟨(planImage (twoSegmentImage 0x400000) 176 testRegion emptyPlan).1, ?_, fun h => ?_⟩
  · apply Prod.ext
    · rfl
    · decide
  · exact h 0x400000 0 1 (by decide) (by decide) (by decide) (by decide) (by decide)

end Mcsos.ElfPermissions

import Mathlib.Data.Set.BooleanAlgebra
import Mathlib.Data.Set.Insert
import Mathlib.Order.CompletePartialOrder
import Mcsos.CallSystem
import Mcsos.PmmBitmap

/-!
Who owns a physical frame.  The abstract allocator moves frames between three
sets; every run of the bitmap allocator is a run of it.
-/

namespace Mcsos.PmmOwnership

open Mcsos.CallSystem
open Mcsos.PmmModel
open Mcsos.PmmBitmap
open Mcsos.WordArithmetic

inductive PmmCall where
  | alloc
  | free (physAddr : Nat)
  | reserve (base length : Nat)
deriving DecidableEq

inductive PmmResult where
  | frame (physAddr : Nat)
  | flag (ok : Bool)
deriving DecidableEq

/-- The frames that can be handed out, those that are handed out, and those that
never will be. -/
@[ext]
structure Ownership where
  free : Set Nat
  outstanding : Set Nat
  withheld : Set Nat

inductive OwnershipStep : Ownership → PmmCall → PmmResult → Ownership → Prop
  | grant {o : Ownership} {f : Nat} (hfree : f ∈ o.free) :
      OwnershipStep o .alloc (.frame (f * pmmPageSize))
        ⟨o.free \ {f}, insert f o.outstanding, o.withheld⟩
  | refuse (o : Ownership) : OwnershipStep o .alloc (.frame pmmInvalidFrame) o
  | release {o : Ownership} {f : Nat} (hout : f ∈ o.outstanding) :
      OwnershipStep o (.free (f * pmmPageSize)) (.flag true)
        ⟨insert f o.free, o.outstanding \ {f}, o.withheld⟩
  | reserve {o : Ownership} {base length : Nat} {ok : Bool} {moved : Set Nat}
      (hmoved : moved ⊆ o.free) :
      OwnershipStep o (.reserve base length) (.flag ok)
        ⟨o.free \ moved, o.outstanding, o.withheld ∪ moved⟩

/-- Every frame below `frameCount`, and no other, is in exactly one of the sets. -/
structure Ownership.Partition (o : Ownership) (frameCount : Nat) : Prop where
  cover : ∀ f, f < frameCount ↔ f ∈ o.free ∨ f ∈ o.outstanding ∨ f ∈ o.withheld
  free_outstanding : Disjoint o.free o.outstanding
  free_withheld : Disjoint o.free o.withheld
  outstanding_withheld : Disjoint o.outstanding o.withheld

theorem OwnershipStep.withheld_subset {o o' : Ownership} {call : PmmCall} {result : PmmResult}
    (h : OwnershipStep o call result o') : o.withheld ⊆ o'.withheld := by
  cases h with
  | grant hfree => exact subset_rfl
  | refuse => exact subset_rfl
  | release hout => exact subset_rfl
  | reserve hmoved => exact Set.subset_union_left

theorem OwnershipStep.partition {o o' : Ownership} {call : PmmCall} {result : PmmResult}
    {n : Nat} (h : OwnershipStep o call result o') (hpart : o.Partition n) :
    o'.Partition n := by
  obtain ⟨hcover, hfo, hfw, how⟩ := hpart
  rw [Set.disjoint_left] at hfo hfw how
  cases h with
  | @grant f hfree =>
      refine ⟨fun g => ?_, ?_, ?_, ?_⟩
      · rw [hcover g]
        by_cases heq : g = f
        · simp [heq, hfree]
        · simp [heq]
      · rw [Set.disjoint_left]
        rintro g ⟨hg, hne⟩ (rfl | hout)
        · exact hne rfl
        · exact hfo hg hout
      · rw [Set.disjoint_left]
        exact fun g hg => hfw hg.1
      · rw [Set.disjoint_left]
        rintro g (rfl | hout)
        · exact hfw hfree
        · exact how hout
  | refuse => exact ⟨hcover, Set.disjoint_left.mpr hfo, Set.disjoint_left.mpr hfw,
      Set.disjoint_left.mpr how⟩
  | @release f hout =>
      refine ⟨fun g => ?_, ?_, ?_, ?_⟩
      · rw [hcover g]
        by_cases heq : g = f
        · simp [heq, hout]
        · simp [heq]
      · rw [Set.disjoint_left]
        rintro g (rfl | hg) ⟨hgout, hne⟩
        · exact hne rfl
        · exact hfo hg hgout
      · rw [Set.disjoint_left]
        rintro g (rfl | hg)
        · exact how hout
        · exact hfw hg
      · rw [Set.disjoint_left]
        exact fun g hg => how hg.1
  | @reserve base length ok moved hmoved =>
      refine ⟨fun g => ?_, ?_, ?_, ?_⟩
      · rw [hcover g]
        by_cases hin : g ∈ moved
        · simp [hin, hmoved hin]
        · simp [hin]
      · rw [Set.disjoint_left]
        exact fun g hg => hfo hg.1
      · rw [Set.disjoint_left]
        rintro g ⟨hg, hnot⟩ (hw | hin)
        · exact hfw hg hw
        · exact hnot hin
      · rw [Set.disjoint_left]
        rintro g hg (hw | hin)
        · exact how hg hw
        · exact hfo (hmoved hin) hg

section AbstractRuns

variable {o o' : Ownership} {n : Nat} {trace : List (PmmCall × PmmResult)}

theorem specRun_withheld_subset (h : SpecRun OwnershipStep o trace o') :
    o.withheld ⊆ o'.withheld := by
  induction h with
  | nil o => exact subset_rfl
  | cons hstep _ ih => exact hstep.withheld_subset.trans ih

theorem page_ne_invalid (f : Nat) : f * pmmPageSize ≠ pmmInvalidFrame := by
  simp only [pmmPageSize, pmmInvalidFrame]
  omega

theorem OwnershipStep.granted_mem {physAddr : Nat}
    (h : OwnershipStep o .alloc (.frame physAddr) o') (hvalid : physAddr ≠ pmmInvalidFrame) :
    physAddr / pmmPageSize ∈ o.free ∧ physAddr / pmmPageSize ∈ o'.outstanding ∧
      physAddr / pmmPageSize * pmmPageSize = physAddr := by
  cases h with
  | @grant f hfree =>
      rw [Nat.mul_div_cancel f (by decide)]
      exact ⟨hfree, Set.mem_insert f _, rfl⟩
  | refuse => exact absurd rfl hvalid

theorem specRun_granted_not_withheld (h : SpecRun OwnershipStep o trace o')
    (hpart : o.Partition n) {physAddr : Nat} (hmem : (.alloc, .frame physAddr) ∈ trace)
    (hvalid : physAddr ≠ pmmInvalidFrame) :
    physAddr / pmmPageSize < n ∧ physAddr / pmmPageSize ∉ o.withheld ∧
      physAddr / pmmPageSize * pmmPageSize = physAddr := by
  induction h with
  | nil o => cases hmem
  | cons hstep _ ih =>
      rcases List.mem_cons.mp hmem with heq | hrest
      · cases heq
        obtain ⟨hfree, -, hpage⟩ := hstep.granted_mem hvalid
        exact ⟨(hpart.cover _).mpr (.inl hfree),
          Set.disjoint_left.mp hpart.free_withheld hfree, hpage⟩
      · obtain ⟨hlt, hnot, hpage⟩ := ih (hstep.partition hpart) hrest
        exact ⟨hlt, fun hw => hnot (hstep.withheld_subset hw), hpage⟩

theorem OwnershipStep.outstanding_or_freed {call : PmmCall} {result : PmmResult} {f : Nat}
    (h : OwnershipStep o call result o') (hout : f ∈ o.outstanding) :
    f ∈ o'.outstanding ∨ (call = .free (f * pmmPageSize) ∧ result = .flag true) := by
  cases h with
  | grant hfree => exact .inl (Set.mem_insert_of_mem _ hout)
  | refuse => exact .inl hout
  | @release g hg =>
      by_cases heq : f = g
      · exact .inr ⟨by rw [heq], rfl⟩
      · exact .inl ⟨hout, heq⟩
  | reserve hmoved => exact .inl hout

theorem specRun_freed_before_grant {between after : List (PmmCall × PmmResult)} {f : Nat}
    (h : SpecRun OwnershipStep o
      (between ++ (.alloc, .frame (f * pmmPageSize)) :: after) o')
    (hpart : o.Partition n) (hout : f ∈ o.outstanding) :
    (.free (f * pmmPageSize), .flag true) ∈ between := by
  induction between generalizing o with
  | nil =>
      cases h with
      | cons hstep _ =>
          obtain ⟨hfree, -, -⟩ := hstep.granted_mem (page_ne_invalid f)
          rw [Nat.mul_div_cancel f (by decide)] at hfree
          exact absurd hout (Set.disjoint_left.mp hpart.free_outstanding hfree)
  | cons event between ih =>
      cases h with
      | cons hstep hrest =>
          rcases hstep.outstanding_or_freed hout with hstill | ⟨rfl, rfl⟩
          · exact List.mem_cons_of_mem _ (ih hrest (hstep.partition hpart) hstill)
          · exact List.mem_cons_self

theorem specRun_no_double_grant {before between after : List (PmmCall × PmmResult)}
    {physAddr : Nat}
    (h : SpecRun OwnershipStep o
      (before ++ (.alloc, .frame physAddr) :: (between ++ (.alloc, .frame physAddr) :: after)) o')
    (hpart : o.Partition n) (hvalid : physAddr ≠ pmmInvalidFrame) :
    (.free physAddr, .flag true) ∈ between := by
  induction before generalizing o with
  | nil =>
      cases h with
      | cons hstep hrest =>
          obtain ⟨-, hout, haddr⟩ := hstep.granted_mem hvalid
          rw [← haddr] at hrest ⊢
          exact specRun_freed_before_grant hrest (hstep.partition hpart) hout
  | cons event before ih =>
      cases h with
      | cons hstep hrest => exact ih hrest (hstep.partition hpart)

end AbstractRuns

/-- The allocator with the addresses that it returned and that were not freed
since. -/
structure PmmRun where
  pmm : PmmState
  outstanding : List Nat

/-- Arguments are 64-bit, and only outstanding frames are freed. -/
def PmmRun.Allowed (r : PmmRun) : PmmCall → Prop
  | .alloc => True
  | .free physAddr => physAddr ∈ r.outstanding
  | .reserve base length => base < 2 ^ 64 ∧ length < 2 ^ 64

def PmmRun.step (r : PmmRun) : PmmCall → PmmRun × PmmResult
  | .alloc =>
      let (pmm, physAddr) := pmmAllocFrame r.pmm
      (⟨pmm, if physAddr = pmmInvalidFrame then r.outstanding else physAddr :: r.outstanding⟩,
        .frame physAddr)
  | .free physAddr =>
      let (pmm, ok) := pmmFreeFrame r.pmm physAddr
      (⟨pmm, r.outstanding.filter (· != physAddr)⟩, .flag ok)
  | .reserve base length =>
      let (pmm, ok) := pmmReserveRange r.pmm base length
      (⟨pmm, r.outstanding⟩, .flag ok)

def pmmSystem : System PmmRun PmmCall PmmResult where
  allowed := PmmRun.Allowed
  step r call := some (r.step call)

/-- The ownership that a state stands for: the clear bits, the frames behind the outstanding
addresses, and the rest of the frames. -/
def ownership (r : PmmRun) : Ownership where
  free := {f | f < r.pmm.frameCount ∧ bitmapTest r.pmm.bitmap f = false}
  outstanding := {f | f * pmmPageSize ∈ r.outstanding}
  withheld :=
    {f | f < r.pmm.frameCount ∧ bitmapTest r.pmm.bitmap f = true ∧
      f * pmmPageSize ∉ r.outstanding}

/-- What the initialised allocator keeps. -/
structure PmmInv (frameCount : Nat) (r : PmmRun) : Prop where
  initialized : r.pmm.initialized = true
  frameCount_eq : r.pmm.frameCount = frameCount
  maxPhys_eq : r.pmm.maxPhys = 4096 * frameCount
  maxPhys_lt : r.pmm.maxPhys < 2 ^ 64
  hint : r.pmm.nextHint ≤ frameCount
  zero_used : bitmapTest r.pmm.bitmap 0 = true
  out_used : ∀ p ∈ r.outstanding, p ≠ 0 ∧ p % 4096 = 0 ∧ p / 4096 < frameCount ∧
    bitmapTest r.pmm.bitmap (p / 4096) = true

theorem PmmInv.partition {n : Nat} {r : PmmRun} (h : PmmInv n r) : (ownership r).Partition n := by
  have hout : ∀ f, f * pmmPageSize ∈ r.outstanding → f < n ∧ bitmapTest r.pmm.bitmap f = true := by
    intro f hf
    obtain ⟨-, -, hlt, hset⟩ := h.out_used _ hf
    rw [pmmPageSize, Nat.mul_div_cancel f (by decide)] at hlt hset
    exact ⟨hlt, hset⟩
  refine ⟨fun f => ?_, ?_, ?_, ?_⟩
  · simp only [ownership, Set.mem_ofPred_eq, h.frameCount_eq]
    constructor
    · intro hlt
      cases hbit : bitmapTest r.pmm.bitmap f
      · exact .inl ⟨hlt, rfl⟩
      · by_cases hmem : f * pmmPageSize ∈ r.outstanding
        · exact .inr (.inl hmem)
        · exact .inr (.inr ⟨hlt, rfl, hmem⟩)
    · rintro (⟨hlt, -⟩ | hmem | ⟨hlt, -⟩)
      · exact hlt
      · exact (hout f hmem).1
      · exact hlt
  · rw [Set.disjoint_left]
    rintro f ⟨-, hclear⟩ hmem
    rw [(hout f hmem).2] at hclear
    cases hclear
  · rw [Set.disjoint_left]
    rintro f ⟨-, hclear⟩ ⟨-, hset, -⟩
    rw [hset] at hclear
    cases hclear
  · rw [Set.disjoint_left]
    rintro f hmem ⟨-, -, hnot⟩
    exact hnot hmem

theorem scanFrames_some {bitmap : Bitmap} {frame count f : Nat}
    (h : scanFrames bitmap frame count = some f) :
    frame ≤ f ∧ f < frame + count ∧ bitmapTest bitmap f = false := by
  induction count generalizing frame with
  | zero => cases h
  | succ count ih =>
      rw [scanFrames] at h
      split at h
      · obtain ⟨hle, hlt, hclear⟩ := ih h
        exact ⟨by omega, by omega, hclear⟩
      case isFalse hbit =>
        cases h
        exact ⟨le_refl _, by omega, by simpa using hbit⟩

theorem pmmAllocFrame_cases (pmm : PmmState) (hhint : pmm.nextHint ≤ pmm.frameCount) :
    pmmAllocFrame pmm = (pmm, pmmInvalidFrame) ∨
      ∃ f, f < pmm.frameCount ∧ bitmapTest pmm.bitmap f = false ∧
        pmmAllocFrame pmm = takeFrame pmm f := by
  unfold pmmAllocFrame
  split
  · exact .inl rfl
  · split
    case h_1 f hscan =>
      obtain ⟨-, hlt, hclear⟩ := scanFrames_some hscan
      exact .inr ⟨f, by omega, hclear, rfl⟩
    · split
      case h_1 f hscan =>
        obtain ⟨-, hlt, hclear⟩ := scanFrames_some hscan
        exact .inr ⟨f, by omega, hclear, rfl⟩
      · exact .inl rfl

section Step

variable {n : Nat} {r : PmmRun}

theorem PmmInv.takeFrame (h : PmmInv n r) {f : Nat} (hlt : f < n)
    (hclear : bitmapTest r.pmm.bitmap f = false) :
    PmmInv n ⟨(takeFrame r.pmm f).1, f * pmmPageSize :: r.outstanding⟩ := by
  obtain ⟨-, hmax, hcount, hinit⟩ := markFrameUsed_shape r.pmm f
  have hfc := h.frameCount_eq
  have hmp := h.maxPhys_eq
  have hmlt := h.maxPhys_lt
  have htest : ∀ g, bitmapTest (PmmModel.takeFrame r.pmm f).1.bitmap g =
      (bitmapTest r.pmm.bitmap g || decide (f = g)) := by
    intro g
    have hin : f < r.pmm.frameCount := by omega
    rw [PmmModel.takeFrame, markFrameUsed_test, decide_eq_true hin, Bool.and_true]
  refine ⟨hinit.trans h.initialized, hcount.trans hfc, hmax.trans hmp, ?_, ?_, ?_, ?_⟩
  · exact hmax.trans_lt hmlt
  · have hsmall : (f + 1) % 2 ^ 64 = f + 1 := Nat.mod_eq_of_lt (by omega)
    exact hsmall.trans_le hlt
  · rw [htest, h.zero_used, Bool.true_or]
  · intro p hp
    have hzero : f ≠ 0 := by
      rintro rfl
      rw [h.zero_used] at hclear
      cases hclear
    rcases List.mem_cons.mp hp with rfl | hold
    · rw [htest, pmmPageSize, Nat.mul_div_cancel f (by decide)]
      exact ⟨by omega, by omega, hlt, by simp⟩
    · obtain ⟨hne, halign, hplt, hset⟩ := h.out_used p hold
      exact ⟨hne, halign, hplt, by rw [htest, hset, Bool.true_or]⟩

theorem ownership_takeFrame {f : Nat} (hlt : f < r.pmm.frameCount)
    (hclear : bitmapTest r.pmm.bitmap f = false) :
    ownership ⟨(takeFrame r.pmm f).1, f * pmmPageSize :: r.outstanding⟩ =
      ⟨(ownership r).free \ {f}, insert f (ownership r).outstanding, (ownership r).withheld⟩ := by
  ext g
  · simp only [ownership, Set.mem_ofPred_eq, Set.mem_sdiff, Set.mem_singleton_iff, takeFrame,
      (markFrameUsed_shape r.pmm f).frameCount, markFrameUsed_test, Bool.or_eq_false_iff,
      Bool.and_eq_false_iff, decide_eq_false_iff_not]
    constructor
    · rintro ⟨hg, hbit, hne⟩
      exact ⟨⟨hg, hbit⟩, fun heq => by omega⟩
    · rintro ⟨⟨hg, hbit⟩, hne⟩
      exact ⟨hg, hbit, .inl fun heq => hne heq.symm⟩
  · simp only [ownership, Set.mem_ofPred_eq, Set.mem_insert_iff, List.mem_cons, pmmPageSize]
    constructor
    · rintro (heq | hmem)
      · exact .inl (by omega)
      · exact .inr hmem
    · rintro (rfl | hmem)
      · exact .inl rfl
      · exact .inr hmem
  · simp only [ownership, Set.mem_ofPred_eq, takeFrame,
      (markFrameUsed_shape r.pmm f).frameCount, markFrameUsed_test, Bool.or_eq_true,
      Bool.and_eq_true, decide_eq_true_eq, List.mem_cons, not_or]
    constructor
    · rintro ⟨hg, hbit | ⟨rfl, -⟩, hne, hmem⟩
      · exact ⟨hg, hbit, hmem⟩
      · exact absurd rfl hne
    · rintro ⟨hg, hbit, hmem⟩
      refine ⟨hg, .inl hbit, fun heq => ?_, hmem⟩
      have hgf : g = f := by
        simp only [pmmPageSize] at heq
        omega
      rw [hgf, hclear] at hbit
      cases hbit

theorem takeFrame_address (h : PmmInv n r) {f : Nat} (hlt : f < n) :
    (takeFrame r.pmm f).2 = f * pmmPageSize := by
  have hmp := h.maxPhys_eq
  have hmlt := h.maxPhys_lt
  rw [takeFrame, pmmPageSize]
  exact Nat.mod_eq_of_lt (by omega)

theorem step_alloc_takeFrame (h : PmmInv n r) {f : Nat} (hlt : f < n)
    (htake : pmmAllocFrame r.pmm = takeFrame r.pmm f) :
    r.step .alloc =
      (⟨(takeFrame r.pmm f).1, f * pmmPageSize :: r.outstanding⟩, .frame (f * pmmPageSize)) := by
  simp only [PmmRun.step, htake, takeFrame_address h hlt, if_neg (page_ne_invalid f)]

theorem step_alloc (h : PmmInv n r) :
    PmmInv n (r.step .alloc).1 ∧
      OwnershipStep (ownership r) .alloc (r.step .alloc).2 (ownership (r.step .alloc).1) := by
  have hfc := h.frameCount_eq
  rcases pmmAllocFrame_cases r.pmm (h.hint.trans_eq hfc.symm) with
    hnone | ⟨f, hlt, hclear, htake⟩
  · simp only [PmmRun.step, hnone, if_true]
    exact ⟨h, .refuse _⟩
  · rw [step_alloc_takeFrame h (hlt.trans_eq hfc) htake]
    refine ⟨h.takeFrame (hlt.trans_eq hfc) hclear, ?_⟩
    rw [ownership_takeFrame hlt hclear]
    exact .grant ⟨hlt, hclear⟩

/-- A page in use, other than the first. -/
def UsedPage (pmm : PmmState) (physAddr : Nat) : Prop :=
  physAddr ≠ 0 ∧ physAddr % 4096 = 0 ∧ physAddr / 4096 < pmm.frameCount ∧
    bitmapTest pmm.bitmap (physAddr / 4096) = true

theorem pmmFreeFrame_used (h : PmmInv n r) {physAddr : Nat} (hused : UsedPage r.pmm physAddr) :
    pmmFreeFrame r.pmm physAddr = (markFrameFree r.pmm (physAddr / 4096), true) := by
  obtain ⟨hne, halign, hlt, hset⟩ := hused
  have hfc := h.frameCount_eq
  have hmp := h.maxPhys_eq
  have hargs : ¬(physAddr % 4096 ≠ 0 ∨ physAddr = 0 ∨ r.pmm.maxPhys ≤ physAddr) := by omega
  rw [pmmFreeFrame, and_pageMask, if_neg hargs, h.initialized, pmmPageSize, hset,
    if_neg Bool.noConfusion, if_neg Bool.noConfusion]

theorem pmmFreeFrame_refused (h : PmmInv n r) {physAddr : Nat}
    (hunused : ¬UsedPage r.pmm physAddr) : pmmFreeFrame r.pmm physAddr = (r.pmm, false) := by
  have hfc := h.frameCount_eq
  have hmp := h.maxPhys_eq
  rw [pmmFreeFrame, and_pageMask, pmmPageSize]
  split
  · rfl
  · split
    · rfl
    case isFalse hargs =>
      have hclear : bitmapTest r.pmm.bitmap (physAddr / 4096) = false := by
        rw [← Bool.not_eq_true]
        intro hset
        exact hunused ⟨by omega, by omega, by omega, hset⟩
      rw [if_pos hclear]

theorem pmmFreeFrame_outstanding (h : PmmInv n r) {physAddr : Nat}
    (hmem : physAddr ∈ r.outstanding) :
    pmmFreeFrame r.pmm physAddr = (markFrameFree r.pmm (physAddr / 4096), true) := by
  apply pmmFreeFrame_used h
  rw [UsedPage, h.frameCount_eq]
  exact h.out_used physAddr hmem

theorem markFrameFree_test_of_lt {pmm : PmmState} {f : Nat} (hlt : f < pmm.frameCount) (g : Nat) :
    bitmapTest (markFrameFree pmm f).bitmap g =
      (bitmapTest pmm.bitmap g && !decide (f = g)) := by
  rw [markFrameFree_test, decide_eq_true hlt, Bool.and_true]

theorem PmmInv.releaseFrame (h : PmmInv n r) {f : Nat} (hzero : f ≠ 0) (hlt : f < n) :
    PmmInv n ⟨markFrameFree r.pmm f, r.outstanding.filter (· != f * pmmPageSize)⟩ := by
  obtain ⟨-, hmax, hcount, hinit⟩ := markFrameFree_shape r.pmm f
  have hfc := h.frameCount_eq
  have htest := fun g => markFrameFree_test_of_lt (hlt.trans_eq hfc.symm) g
  refine ⟨hinit.trans h.initialized, hcount.trans hfc, hmax.trans h.maxPhys_eq,
    hmax.trans_lt h.maxPhys_lt, (markFrameFree_nextHint r.pmm f).trans h.hint, ?_, ?_⟩
  · rw [htest, h.zero_used, decide_eq_false hzero]
    rfl
  · intro p hp
    obtain ⟨hold, hother⟩ := List.mem_filter.mp hp
    rw [bne_iff_ne] at hother
    obtain ⟨hpne, hpalign, hplt, hpset⟩ := h.out_used p hold
    have hframe : f ≠ p / 4096 := by
      rw [pmmPageSize] at hother
      omega
    exact ⟨hpne, hpalign, hplt, by rw [htest, hpset, decide_eq_false hframe]; rfl⟩

theorem ownership_releaseFrame {f : Nat} (hlt : f < r.pmm.frameCount)
    (hmem : f * pmmPageSize ∈ r.outstanding) :
    ownership ⟨markFrameFree r.pmm f, r.outstanding.filter (· != f * pmmPageSize)⟩ =
      ⟨insert f (ownership r).free, (ownership r).outstanding \ {f}, (ownership r).withheld⟩ := by
  have hcount := (markFrameFree_shape r.pmm f).frameCount
  ext g
  · simp only [ownership, Set.mem_ofPred_eq, Set.mem_insert_iff, hcount,
      markFrameFree_test_of_lt hlt, Bool.and_eq_false_iff, Bool.not_eq_false', decide_eq_true_eq]
    constructor
    · rintro ⟨hg, hbit | heq⟩
      · exact .inr ⟨hg, hbit⟩
      · exact .inl heq.symm
    · rintro (rfl | ⟨hg, hbit⟩)
      · exact ⟨hlt, .inr rfl⟩
      · exact ⟨hg, .inl hbit⟩
  · simp only [ownership, Set.mem_ofPred_eq, Set.mem_sdiff, Set.mem_singleton_iff,
      List.mem_filter, bne_iff_ne, ne_eq, pmmPageSize]
    constructor
    · rintro ⟨hg, hdiff⟩
      exact ⟨hg, fun heq => hdiff (by rw [heq])⟩
    · rintro ⟨hg, hdiff⟩
      exact ⟨hg, by omega⟩
  · simp only [ownership, Set.mem_ofPred_eq, hcount, markFrameFree_test_of_lt hlt,
      Bool.and_eq_true, Bool.not_eq_true', decide_eq_false_iff_not, List.mem_filter, bne_iff_ne,
      ne_eq, pmmPageSize, not_and, not_not]
    constructor
    · rintro ⟨hg, ⟨hbit, hdiff⟩, hout⟩
      exact ⟨hg, hbit, fun hin => hdiff (by have := hout hin; omega)⟩
    · rintro ⟨hg, hbit, hout⟩
      refine ⟨hg, ⟨hbit, ?_⟩, fun hin => absurd hin hout⟩
      rintro rfl
      exact hout hmem

theorem step_free (h : PmmInv n r) {physAddr : Nat} (hmem : physAddr ∈ r.outstanding) :
    PmmInv n (r.step (.free physAddr)).1 ∧
      OwnershipStep (ownership r) (.free physAddr) (r.step (.free physAddr)).2
        (ownership (r.step (.free physAddr)).1) := by
  obtain ⟨hne, halign, hlt, hset⟩ := h.out_used physAddr hmem
  obtain ⟨f, rfl⟩ : ∃ f, physAddr = f * pmmPageSize :=
    ⟨physAddr / 4096, by rw [pmmPageSize]; omega⟩
  have hframe : f * pmmPageSize / 4096 = f := Nat.mul_div_cancel f (by decide)
  rw [hframe] at hlt
  have hzero : f ≠ 0 := by
    rintro rfl
    simp at hne
  have hfree : pmmFreeFrame r.pmm (f * pmmPageSize) = (markFrameFree r.pmm f, true) := by
    rw [pmmFreeFrame_outstanding h hmem, hframe]
  simp only [PmmRun.step, hfree]
  refine ⟨h.releaseFrame hzero hlt, ?_⟩
  rw [ownership_releaseFrame (hlt.trans_eq h.frameCount_eq.symm) hmem]
  exact .release hmem

theorem reserves_pmmReserveRange (pmm : PmmState) (base length : Nat) :
    Reserves pmm (pmmReserveRange pmm base length).1 := by
  unfold pmmReserveRange
  split
  · exact .refl pmm
  · exact reserves_markRangeUsed pmm base length

theorem step_reserve (h : PmmInv n r) (base length : Nat) :
    PmmInv n (r.step (.reserve base length)).1 ∧
      OwnershipStep (ownership r) (.reserve base length) (r.step (.reserve base length)).2
        (ownership (r.step (.reserve base length)).1) := by
  obtain ⟨⟨-, hmax, hcount, hinit⟩, hhint, hkeeps⟩ :=
    reserves_pmmReserveRange r.pmm base length
  simp only [PmmRun.step]
  generalize pmmReserveRange r.pmm base length = next at hmax hcount hinit hhint hkeeps
  obtain ⟨pmm', ok⟩ := next
  dsimp only at hmax hcount hinit hhint hkeeps ⊢
  constructor
  · refine ⟨hinit.trans h.initialized, hcount.trans h.frameCount_eq, hmax.trans h.maxPhys_eq,
      hmax.trans_lt h.maxPhys_lt, hhint.trans_le h.hint, hkeeps 0 h.zero_used, ?_⟩
    intro p hp
    obtain ⟨hne, halign, hlt, hset⟩ := h.out_used p hp
    exact ⟨hne, halign, hlt, hkeeps _ hset⟩
  · have hmoved : {f ∈ (ownership r).free | bitmapTest pmm'.bitmap f = true} ⊆
        (ownership r).free := fun f hf => hf.1
    have hmove : OwnershipStep (ownership r) (.reserve base length) (.flag ok) _ :=
      .reserve hmoved
    convert hmove using 1
    have hfree := Set.disjoint_left.mp h.partition.free_outstanding
    ext g
    · simp only [ownership, Set.mem_ofPred_eq, Set.mem_sdiff, hcount, not_and,
        Bool.not_eq_true]
      constructor
      · rintro ⟨hg, hclear⟩
        refine ⟨⟨hg, ?_⟩, fun _ => hclear⟩
        cases hbit : bitmapTest r.pmm.bitmap g
        · rfl
        · rw [hkeeps g hbit] at hclear
          cases hclear
      · rintro ⟨hg, hclear⟩
        exact ⟨hg.1, hclear hg⟩
    · rfl
    · simp only [ownership, Set.mem_ofPred_eq, Set.mem_union, hcount]
      constructor
      · rintro ⟨hg, hset, hout⟩
        cases hbit : bitmapTest r.pmm.bitmap g
        · exact .inr ⟨⟨hg, rfl⟩, hset⟩
        · exact .inl ⟨hg, rfl, hout⟩
      · rintro (⟨hg, hset, hout⟩ | ⟨hclear, hset⟩)
        · exact ⟨hg, hkeeps g hset, hout⟩
        · exact ⟨hclear.1, hset, hfree hclear⟩

/-- Every allowed call keeps the invariant and makes a step of the abstract
allocator. -/
theorem pmmInv_step (h : PmmInv n r) {call : PmmCall} (hallowed : r.Allowed call) :
    PmmInv n (r.step call).1 ∧
      OwnershipStep (ownership r) call (r.step call).2 (ownership (r.step call).1) := by
  cases call with
  | alloc => exact step_alloc h
  | free physAddr => exact step_free h hallowed
  | reserve base length => exact step_reserve h base length

end Step

theorem markRangeUsed_firstPage (pmm : PmmState) (hcount : 0 < pmm.frameCount)
    (hmax : pmm.maxPhys = 4096 * pmm.frameCount) :
    bitmapTest (markRangeUsed pmm 0 pmmPageSize).bitmap 0 = true := by
  have hadd : checkedAddU64 0 pmmPageSize = some 4096 := by decide
  have hstart : alignDown 0 pmmPageSize = 0 := by decide
  have hstop : alignUp 4096 pmmPageSize = 4096 := by decide
  have hpages : pagesBetween 0 4096 = 1 := by decide
  have hwide : ¬(4096 ≤ 0 ∨ pmm.maxPhys ≤ 0) := by omega
  have hclip : ¬pmm.maxPhys < 4096 := by omega
  have hpage : ¬pmmPageSize = 0 := by decide
  simp only [markRangeUsed, hadd, hstart, hstop, if_neg hpage, if_neg hwide, if_neg hclip,
    hpages, forPages_reserveFrame_test]
  simp [hcount]

theorem pmmInv_regions {n : Nat} {pmm : PmmState} (regions : List BootMemRegion)
    (hframes : pmm.frameCount = n) (hcount : 0 < n) (hmax : pmm.maxPhys = 4096 * n)
    (hlt : pmm.maxPhys < 2 ^ 64) (hhint : pmm.nextHint = 0) :
    PmmInv n
      ⟨{ reserveOtherRegions (markRangeUsed (freeUsableRegions pmm regions) 0 pmmPageSize) regions
          with initialized := true }, []⟩ := by
  obtain ⟨hshape₁, hhint₁⟩ := frees_freeUsableRegions pmm regions
  have hreserves := (reserves_markRangeUsed (freeUsableRegions pmm regions) 0 pmmPageSize).trans
    (reserves_reserveOtherRegions _ regions)
  have hfirst : bitmapTest
      (markRangeUsed (freeUsableRegions pmm regions) 0 pmmPageSize).bitmap 0 = true := by
    apply markRangeUsed_firstPage
    · rw [hshape₁.frameCount, hframes]
      exact hcount
    · rw [hshape₁.maxPhys, hshape₁.frameCount, hframes, hmax]
  have hshape := hshape₁.trans hreserves.shape
  refine ⟨rfl, hshape.frameCount.trans hframes, hshape.maxPhys.trans hmax,
    hshape.maxPhys.trans_lt hlt, ?_, ?_, fun p hp => by cases hp⟩
  · have hzero := hreserves.nextHint
    dsimp only
    omega
  · exact (reserves_reserveOtherRegions _ regions).keeps 0 hfirst

section Runs

variable {pmm : PmmState} {regions : Option (List BootMemRegion)} {storage : Option Bitmap}
  {storageBytes maxPhysBytes : Nat} {trace : List (PmmCall × PmmResult)} {r : PmmRun}

/-- The state in which clients find the allocator after `pmm_init_from_map`. -/
def startRun (pmm : PmmState) (regions : Option (List BootMemRegion)) (storage : Option Bitmap)
    (storageBytes maxPhysBytes : Nat) : PmmRun :=
  ⟨(pmmInitFromMap pmm regions storage storageBytes maxPhysBytes).1, []⟩

/-- The state of `pmm_init_from_map` before it marks any region. -/
def unmarkedState (bitmapStorage : Bitmap) (maxPhysBytes : Nat) : PmmState :=
  { pmmZeroState with
    bitmap := fillBitmap bitmapStorage ((maxPhysBytes / pmmPageSize + 7) % 2 ^ 64 / 8)
    bitmapBytes := (maxPhysBytes / pmmPageSize + 7) % 2 ^ 64 / 8
    maxPhys := maxPhysBytes
    frameCount := maxPhysBytes / pmmPageSize
    usedFrames := maxPhysBytes / pmmPageSize }

theorem pmmInitFromMap_true
    (hinit : (pmmInitFromMap pmm regions storage storageBytes maxPhysBytes).2 = true) :
    ∃ map bitmapStorage, regions = some map ∧ storage = some bitmapStorage ∧
      maxPhysBytes ≠ 0 ∧ maxPhysBytes % 4096 = 0 ∧
      (pmmInitFromMap pmm regions storage storageBytes maxPhysBytes).1 =
        { reserveOtherRegions (markRangeUsed
            (freeUsableRegions (unmarkedState bitmapStorage maxPhysBytes) map) 0 pmmPageSize) map
          with initialized := true } := by
  unfold pmmInitFromMap at hinit ⊢
  split at hinit
  case h_2 => cases hinit
  case h_1 map bitmapStorage =>
    dsimp only at hinit ⊢
    split at hinit
    case isTrue => cases hinit
    case isFalse hregions =>
      split at hinit
      case isTrue => cases hinit
      case isFalse hsize =>
        split at hinit
        case isTrue => cases hinit
        case isFalse hroom =>
          rw [and_pageMask] at hsize
          rw [if_neg hregions, and_pageMask, if_neg hsize, if_neg hroom]
          exact ⟨map, bitmapStorage, rfl, rfl, fun h => hsize (.inl h),
            not_not.mp fun h => hsize (.inr h), rfl⟩

theorem pmmInv_startRun
    (hinit : (pmmInitFromMap pmm regions storage storageBytes maxPhysBytes).2 = true)
    (hmax : maxPhysBytes < 2 ^ 64) :
    PmmInv (maxPhysBytes / 4096) (startRun pmm regions storage storageBytes maxPhysBytes) := by
  obtain ⟨map, bitmapStorage, -, -, hzero, hpages, hstate⟩ := pmmInitFromMap_true hinit
  unfold startRun
  rw [hstate]
  refine pmmInv_regions map rfl ?_ ?_ hmax rfl
  · omega
  · show maxPhysBytes = 4096 * (maxPhysBytes / 4096)
    omega

theorem pmmInv_run {n : Nat} {r₀ : PmmRun} (hrun : Run pmmSystem r₀ trace r)
    (h : PmmInv n r₀) :
    PmmInv n r ∧ SpecRun OwnershipStep (ownership r₀) trace (ownership r) := by
  obtain ⟨o, hspec, hinv, rfl⟩ := hrun.simulation_total (fun _ _ => rfl)
    (fun r o => PmmInv n r ∧ o = ownership r)
    (by
      rintro r o call ⟨hinv, rfl⟩ hallowed
      obtain ⟨hinv', hspec⟩ := pmmInv_step hinv hallowed
      exact ⟨_, hspec, hinv', rfl⟩)
    ⟨h, rfl⟩
  exact ⟨hinv, hspec⟩

/-- In every reachable state the frames are partitioned into free, outstanding and
withheld ones, and every call moves frames as the abstract allocator does.  No
frame is handed out twice without a free in between, and only frames that were
free after the initialisation are handed out, never the first one. -/
theorem run_ownership
    (hinit : (pmmInitFromMap pmm regions storage storageBytes maxPhysBytes).2 = true)
    (hmax : maxPhysBytes < 2 ^ 64)
    (hrun : Run pmmSystem (startRun pmm regions storage storageBytes maxPhysBytes) trace r) :
    (ownership r).Partition r.pmm.frameCount ∧
      (∀ call, r.Allowed call →
        OwnershipStep (ownership r) call (r.step call).2 (ownership (r.step call).1)) ∧
      (ownership (startRun pmm regions storage storageBytes maxPhysBytes)).withheld ⊆
        (ownership r).withheld ∧
      (∀ physAddr, (.alloc, .frame physAddr) ∈ trace → physAddr ≠ pmmInvalidFrame →
        physAddr / pmmPageSize ≠ 0 ∧ physAddr / pmmPageSize ∈
          (ownership (startRun pmm regions storage storageBytes maxPhysBytes)).free) ∧
      ∀ before between after physAddr,
        trace = before ++ (.alloc, .frame physAddr) ::
          (between ++ (.alloc, .frame physAddr) :: after) →
        physAddr ≠ pmmInvalidFrame → (.free physAddr, .flag true) ∈ between := by
  have hstart := pmmInv_startRun hinit hmax
  obtain ⟨hinv, hspec⟩ := pmmInv_run hrun hstart
  refine ⟨?_, fun call hallowed => (pmmInv_step hinv hallowed).2,
    specRun_withheld_subset hspec, ?_, ?_⟩
  · rw [hinv.frameCount_eq]
    exact hinv.partition
  · intro physAddr hmem hvalid
    obtain ⟨hlt, hnot, -⟩ := specRun_granted_not_withheld hspec hstart.partition hmem hvalid
    have hfree := ((hstart.partition.cover _).mp hlt).resolve_right
      (not_or.mpr ⟨List.not_mem_nil, hnot⟩)
    refine ⟨fun hzero => ?_, hfree⟩
    rw [hzero] at hfree
    exact absurd (hfree.2.symm.trans hstart.zero_used) Bool.false_ne_true
  · rintro before between after physAddr rfl hvalid
    exact specRun_no_double_grant hspec hstart.partition hvalid

/-- Two usable frames, of which the first is never handed out. -/
def twoFrames : PmmRun :=
  startRun pmmZeroState (some [⟨0, 8192, bootMemUsable⟩]) (some fun _ => 0) 1 8192

theorem pmmInitFromMap_twoFrames :
    (pmmInitFromMap pmmZeroState (some [⟨0, 8192, bootMemUsable⟩]) (some fun _ => 0) 1 8192).2 =
      true := by
  decide

theorem pmmSystem_step {call : PmmCall} {result : PmmResult} (h : (r.step call).2 = result) :
    pmmSystem.step r call = some ((r.step call).1, result) := by
  rw [← h]
  rfl

theorem run_twoFrames :
    Run pmmSystem twoFrames
      [(.alloc, .frame 4096), (.alloc, .frame pmmInvalidFrame), (.free 4096, .flag true),
        (.alloc, .frame 4096)]
      ((((twoFrames.step .alloc).1.step .alloc).1.step (.free 4096)).1.step .alloc).1 := by
  have hout : 4096 ∈ ((twoFrames.step .alloc).1.step .alloc).1.outstanding := by decide
  refine .cons trivial (pmmSystem_step (by decide)) ?_
  refine .cons trivial (pmmSystem_step (by decide)) ?_
  refine .cons hout (pmmSystem_step (by decide)) ?_
  exact .cons trivial (pmmSystem_step (by decide)) (.nil _)

theorem run_ownership_twoFrames :
    (pmmInitFromMap pmmZeroState (some [⟨0, 8192, bootMemUsable⟩]) (some fun _ => 0) 1 8192).2 =
        true ∧
      1 ∈ (ownership twoFrames).free := by
  obtain ⟨-, -, -, hgranted, -⟩ :=
    run_ownership pmmInitFromMap_twoFrames (by decide) run_twoFrames
  exact ⟨pmmInitFromMap_twoFrames, (hgranted 4096 List.mem_cons_self (by decide)).2⟩

end Runs

end Mcsos.PmmOwnership

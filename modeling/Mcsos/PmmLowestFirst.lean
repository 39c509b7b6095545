import Mathlib.Order.Bounds.Basic
import Mcsos.PmmCounters

/-!
The hint of the frame allocator.  Allocation starts to search at the hint, but no frame below
it is ever free: what is handed out is the lowest free frame, as if there were no hint, and
the second search of `pmm_alloc_frame` finds nothing.
-/

namespace Mcsos.PmmLowestFirst

open Mcsos.PmmModel
open Mcsos.PmmBitmap
open Mcsos.PmmOwnership
open Mcsos.PmmReserved
open Mcsos.PmmCounters

/-- All frames below the hint are used. -/
def HintLow (pmm : PmmState) : Prop :=
  ∀ f < pmm.nextHint, bitmapTest pmm.bitmap f = true

section Search

variable {bitmap : Bitmap} {frame count f : Nat}

theorem scanFrames_eq_none :
    scanFrames bitmap frame count = none ↔
      ∀ g, frame ≤ g → g < frame + count → bitmapTest bitmap g = true := by
  induction count generalizing frame with
  | zero =>
      constructor
      · intro _ g hle hlt
        omega
      · intro _
        rfl
  | succ count ih =>
      rw [scanFrames]
      split
      case isTrue hset =>
        rw [ih]
        constructor
        · intro h g hle hlt
          rcases Nat.lt_or_eq_of_le hle with hlater | rfl
          · exact h g hlater (by omega)
          · exact hset
        · exact fun h g hle hlt => h g (by omega) (by omega)
      case isFalse hclear =>
        constructor
        · intro h
          cases h
        · intro h
          exact absurd (h frame le_rfl (by omega)) hclear

theorem scanFrames_first (h : scanFrames bitmap frame count = some f) {g : Nat}
    (hle : frame ≤ g) (hlt : g < f) : bitmapTest bitmap g = true := by
  induction count generalizing frame with
  | zero => cases h
  | succ count ih =>
      rw [scanFrames] at h
      split at h
      case isTrue hset =>
        rcases Nat.lt_or_eq_of_le hle with hlater | rfl
        · exact ih h hlater
        · exact hset
      case isFalse hclear =>
        cases h
        omega

end Search

section Hint

variable {pmm : PmmState}

theorem HintLow.markFrameFree (h : HintLow pmm) (frame : Nat) :
    HintLow (markFrameFree pmm frame) := by
  intro f hf
  have hold := hf.trans_le (markFrameFree_nextHint pmm frame)
  rw [markFrameFree_test, h f hold, Bool.true_and, Bool.not_eq_true', Bool.and_eq_false_iff]
  rcases Nat.lt_or_ge frame pmm.frameCount with hlt | hout
  · -- a frame that is cleared lowers the hint to itself
    refine .inl (decide_eq_false ?_)
    rintro rfl
    have hinside : ¬pmm.frameCount ≤ frame := by omega
    rw [PmmModel.markFrameFree, if_neg hinside, if_pos (h frame hold), if_pos hold] at hf
    exact lt_irrefl frame hf
  · exact .inr (decide_eq_false (by omega))

theorem HintLow.of_reserves {pmm' : PmmState} (h : HintLow pmm) (hreserves : Reserves pmm pmm') :
    HintLow pmm' := by
  intro f hf
  rw [hreserves.nextHint] at hf
  exact hreserves.keeps f (h f hf)

theorem HintLow.second_search (h : HintLow pmm) : scanFrames pmm.bitmap 0 pmm.nextHint = none := by
  rw [scanFrames_eq_none]
  intro g _ hlt
  exact h g (by omega)

theorem pmmAllocFrame_lowest (h : HintLow pmm) (hcounted : Counted pmm)
    (hready : pmm.initialized = true) :
    (clearFrames pmm = ∅ ∧ pmmAllocFrame pmm = (pmm, pmmInvalidFrame)) ∨
      ∃ f, IsLeast {g | g ∈ clearFrames pmm} f ∧ pmmAllocFrame pmm = takeFrame pmm f := by
  have hhint := hcounted.hint_le
  rw [pmmAllocFrame, h.second_search]
  rcases Nat.eq_zero_or_pos pmm.freeFrames with hzero | hpos
  · left
    rw [if_pos (.inr hzero), ← Finset.card_eq_zero, ← hcounted.free_eq]
    exact ⟨hzero, rfl⟩
  · have hsome : ¬(pmm.initialized = false ∨ pmm.freeFrames = 0) := by
      rw [hready]
      simpa using hpos.ne'
    rw [if_neg hsome]
    cases hscan : scanFrames pmm.bitmap pmm.nextHint (pmm.frameCount - pmm.nextHint) with
    | none =>
        left
        refine ⟨?_, rfl⟩
        rw [Finset.eq_empty_iff_forall_notMem]
        intro f hf
        obtain ⟨hlt, hclear⟩ := mem_clearFrames.mp hf
        have hset : bitmapTest pmm.bitmap f = true := by
          rcases Nat.lt_or_ge f pmm.nextHint with hlow | hhigh
          · exact h f hlow
          · exact scanFrames_eq_none.mp hscan f hhigh (by omega)
        rw [hset] at hclear
        cases hclear
    | some f =>
        right
        obtain ⟨hle, hlt, hclear⟩ := scanFrames_some hscan
        refine ⟨f, ⟨mem_clearFrames.mpr ⟨by omega, hclear⟩, fun g hg => ?_⟩, rfl⟩
        obtain ⟨-, hgclear⟩ := mem_clearFrames.mp hg
        by_contra hbelow
        have hset : bitmapTest pmm.bitmap g = true := by
          rcases Nat.lt_or_ge g pmm.nextHint with hlow | hhigh
          · exact h g hlow
          · exact scanFrames_first hscan hhigh (by omega)
        rw [hset] at hgclear
        cases hgclear

theorem hintLow_takeFrame (hcounted : Counted pmm) {f : Nat}
    (hleast : IsLeast {g | g ∈ clearFrames pmm} f) : HintLow (takeFrame pmm f).1 := by
  obtain ⟨hlt, -⟩ := mem_clearFrames.mp hleast.1
  have hlimit := hcounted.frameCount_lt
  intro g hg
  change g < (f + 1) % 2 ^ 64 at hg
  rw [Nat.mod_eq_of_lt (by omega)] at hg
  change bitmapTest (markFrameUsed pmm f).bitmap g = true
  rw [markFrameUsed_test, Bool.or_eq_true]
  rcases Nat.lt_or_eq_of_le (Nat.lt_succ_iff.mp hg) with hbelow | rfl
  · left
    rw [← Bool.not_eq_false]
    intro hclear
    have hle : f ≤ g := hleast.2 (mem_clearFrames.mpr ⟨by omega, hclear⟩)
    omega
  · right
    simpa using hlt

theorem hintLow_step {r : PmmRun} {n : Nat} (h : HintLow r.pmm) (hcounted : Counted r.pmm)
    (hinv : PmmInv n r) (call : PmmCall) : HintLow (r.step call).1.pmm := by
  cases call with
  | alloc =>
      change HintLow (pmmAllocFrame r.pmm).1
      rcases pmmAllocFrame_lowest h hcounted hinv.initialized with
        ⟨-, hnone⟩ | ⟨f, hleast, htake⟩
      · rw [hnone]
        exact h
      · rw [htake]
        exact hintLow_takeFrame hcounted hleast
  | free physAddr =>
      change HintLow (pmmFreeFrame r.pmm physAddr).1
      by_cases hused : UsedPage r.pmm physAddr
      · rw [pmmFreeFrame_used hinv hused]
        exact h.markFrameFree _
      · rw [pmmFreeFrame_refused hinv hused]
        exact h
  | reserve base length => exact h.of_reserves (reserves_pmmReserveRange r.pmm base length)

theorem hintLow_startRun {regions : Option (List BootMemRegion)} {storage : Option Bitmap}
    {storageBytes maxPhysBytes : Nat}
    (hinit : (pmmInitFromMap pmm regions storage storageBytes maxPhysBytes).2 = true) :
    HintLow (startRun pmm regions storage storageBytes maxPhysBytes).pmm := by
  obtain ⟨map, bitmapStorage, -, -, -, -, hstate⟩ := pmmInitFromMap_true hinit
  have hstart : HintLow (unmarkedState bitmapStorage maxPhysBytes) :=
    fun f hf => absurd hf (Nat.not_lt_zero f)
  have hfreed := freeUsableRegions_invariant HintLow
    (fun _ frame hlow => hlow.markFrameFree frame) map hstart
  have hmarked := hfreed.of_reserves
    ((reserves_markRangeUsed _ 0 pmmPageSize).trans (reserves_reserveOtherRegions _ map))
  unfold startRun
  rw [hstate]
  exact hmarked

theorem reachable_hintLow {r : PmmRun} (h : Reachable r) : HintLow r.pmm := by
  obtain ⟨pmm, regions, storage, storageBytes, maxPhysBytes, trace, hinit, hmax, hrun⟩ := h
  have hall := hrun.invariant_total (fun _ _ => rfl)
    (fun s => HintLow s.pmm ∧ Counted s.pmm ∧ PmmInv (maxPhysBytes / 4096) s)
    (fun s call ⟨hlow, hcounted, hinv⟩ _ =>
      ⟨hintLow_step hlow hcounted hinv call, hcounted.step call, pmmInv_call hinv call⟩)
    ⟨hintLow_startRun hinit, counted_startRun hinit hmax, pmmInv_startRun hinit hmax⟩
  exact hall.1

end Hint

/-- What later calls can tell apart: the frames and their bits. -/
structure SameFrames (pmm pmm' : PmmState) : Prop where
  frameCount : pmm'.frameCount = pmm.frameCount
  bits : ∀ f < pmm.frameCount, bitmapTest pmm'.bitmap f = bitmapTest pmm.bitmap f

/-- All that the two allocators have in common as long as they get the same calls. -/
structure Twins (n : Nat) (r r' : PmmRun) : Prop where
  inv : PmmInv n r
  inv' : PmmInv n r'
  counted : Counted r.pmm
  counted' : Counted r'.pmm
  low : HintLow r.pmm
  low' : HintLow r'.pmm
  same : SameFrames r.pmm r'.pmm

section Twins

variable {n : Nat} {r r' : PmmRun}

theorem SameFrames.clearFrames_eq {pmm pmm' : PmmState} (h : SameFrames pmm pmm') :
    clearFrames pmm' = clearFrames pmm := by
  ext f
  rw [mem_clearFrames, mem_clearFrames, h.frameCount]
  apply and_congr_right
  intro hlt
  rw [h.bits f hlt]

theorem SameFrames.usedPage_iff {pmm pmm' : PmmState} (h : SameFrames pmm pmm')
    (physAddr : Nat) : UsedPage pmm' physAddr ↔ UsedPage pmm physAddr := by
  unfold UsedPage
  rw [h.frameCount]
  apply and_congr_right'
  apply and_congr_right'
  apply and_congr_right
  intro hlt
  rw [h.bits _ hlt]

theorem SameFrames.markFrameFree {pmm pmm' : PmmState} (h : SameFrames pmm pmm') (frame : Nat) :
    SameFrames (markFrameFree pmm frame) (markFrameFree pmm' frame) := by
  have hcount := (markFrameFree_shape pmm frame).frameCount
  constructor
  · rw [hcount, (markFrameFree_shape pmm' frame).frameCount, h.frameCount]
  · intro f hf
    rw [hcount] at hf
    rw [markFrameFree_test, markFrameFree_test, h.frameCount, h.bits f hf]

theorem SameFrames.takeFrame {pmm pmm' : PmmState} (h : SameFrames pmm pmm') (frame : Nat) :
    SameFrames (takeFrame pmm frame).1 (takeFrame pmm' frame).1 := by
  have hcount := (markFrameUsed_shape pmm frame).frameCount
  constructor
  · show (markFrameUsed pmm' frame).frameCount = (markFrameUsed pmm frame).frameCount
    rw [hcount, (markFrameUsed_shape pmm' frame).frameCount, h.frameCount]
  · intro f hf
    change f < (markFrameUsed pmm frame).frameCount at hf
    rw [hcount] at hf
    show bitmapTest (markFrameUsed pmm' frame).bitmap f =
      bitmapTest (markFrameUsed pmm frame).bitmap f
    rw [markFrameUsed_test, markFrameUsed_test, h.frameCount, h.bits f hf]

theorem Twins.pmmReserveRange (htwins : Twins n r r') {base : Nat} (hbase : base < 2 ^ 64)
    (length : Nat) :
    (pmmReserveRange r'.pmm base length).2 = (pmmReserveRange r.pmm base length).2 ∧
      SameFrames (pmmReserveRange r.pmm base length).1 (pmmReserveRange r'.pmm base length).1 := by
  have hcount := htwins.same.frameCount
  unfold PmmModel.pmmReserveRange
  rw [htwins.inv.initialized, htwins.inv'.initialized]
  split
  · exact ⟨rfl, htwins.same⟩
  · have hshape := (reserves_markRangeUsed r.pmm base length).shape
    have hshape' := (reserves_markRangeUsed r'.pmm base length).shape
    refine ⟨rfl, ?_, ?_⟩
    · rw [hshape.frameCount, hshape'.frameCount, hcount]
    · intro f hf
      rw [hshape.frameCount] at hf
      have hclear : bitmapTest (markRangeUsed r.pmm base length).bitmap f = false ↔ _ :=
        markRangeUsed_clear htwins.counted.maxPhys_eq hbase hf
      have hclear' : bitmapTest (markRangeUsed r'.pmm base length).bitmap f = false ↔ _ :=
        markRangeUsed_clear htwins.counted'.maxPhys_eq hbase (hcount ▸ hf)
      rw [htwins.same.bits f hf, ← hclear] at hclear'
      rwa [← Bool.not_eq_true, ← Bool.not_eq_true, not_iff_not, ← Bool.eq_iff_iff] at hclear'

theorem Twins.step (h : Twins n r r') {call : PmmCall} (hwide : Wide call) :
    (r'.step call).2 = (r.step call).2 ∧ Twins n (r.step call).1 (r'.step call).1 := by
  have hsame : (r'.step call).2 = (r.step call).2 ∧
      SameFrames (r.step call).1.pmm (r'.step call).1.pmm := by
    cases call with
    | alloc =>
        simp only [PmmRun.step]
        rcases pmmAllocFrame_lowest h.low h.counted h.inv.initialized with
          ⟨hempty, hnone⟩ | ⟨f, hleast, htake⟩
        · rcases pmmAllocFrame_lowest h.low' h.counted' h.inv'.initialized with
            ⟨-, hnone'⟩ | ⟨f', hleast', -⟩
          · rw [hnone, hnone']
            exact ⟨rfl, h.same⟩
          · rw [h.same.clearFrames_eq, hempty] at hleast'
            exact absurd hleast'.1 (Finset.notMem_empty f')
        · rcases pmmAllocFrame_lowest h.low' h.counted' h.inv'.initialized with
            ⟨hempty', -⟩ | ⟨f', hleast', htake'⟩
          · rw [← h.same.clearFrames_eq, hempty'] at hleast
            exact absurd hleast.1 (Finset.notMem_empty f)
          · rw [h.same.clearFrames_eq] at hleast'
            obtain rfl : f = f' := hleast.unique hleast'
            rw [htake, htake']
            exact ⟨rfl, h.same.takeFrame f⟩
    | free physAddr =>
        simp only [PmmRun.step]
        by_cases hused : UsedPage r.pmm physAddr
        · have hused' := (h.same.usedPage_iff physAddr).mpr hused
          rw [pmmFreeFrame_used h.inv hused, pmmFreeFrame_used h.inv' hused']
          exact ⟨rfl, h.same.markFrameFree _⟩
        · have hused' := fun hpage => hused ((h.same.usedPage_iff physAddr).mp hpage)
          rw [pmmFreeFrame_refused h.inv hused, pmmFreeFrame_refused h.inv' hused']
          exact ⟨rfl, h.same⟩
    | reserve base length =>
        obtain ⟨hresult, hsame⟩ := h.pmmReserveRange hwide.1 length
        simp only [PmmRun.step, hresult]
        exact ⟨trivial, hsame⟩
  refine ⟨hsame.1, pmmInv_call h.inv call, pmmInv_call h.inv' call, h.counted.step call,
    h.counted'.step call, hintLow_step h.low h.counted h.inv call,
    hintLow_step h.low' h.counted' h.inv' call, hsame.2⟩

theorem Twins.results_eq (h : Twins n r r') {calls : List PmmCall}
    (hwide : ∀ call ∈ calls, Wide call) : results r' calls = results r calls := by
  induction calls generalizing r r' with
  | nil => rfl
  | cons call calls ih =>
      rw [List.forall_mem_cons] at hwide
      obtain ⟨hresult, hnext⟩ := h.step hwide.1
      rw [results, results, hresult, ih hnext hwide.2]

end Twins

/-- In every reachable state no frame below the hint is free, the lowest free frame is handed
out, or `PMM_INVALID_FRAME` when there is none, and the second search finds nothing.  Reachable
states with the same frames and bits cannot be told apart by later calls. -/
theorem reachable_lowestFirst {r : PmmRun} (h : Reachable r) :
    (∀ f < r.pmm.nextHint, bitmapTest r.pmm.bitmap f = true) ∧
      (∀ f, IsLeast {g | g ∈ clearFrames r.pmm} f → (pmmAllocFrame r.pmm).2 = 4096 * f) ∧
      ((pmmAllocFrame r.pmm).2 = pmmInvalidFrame ↔ clearFrames r.pmm = ∅) ∧
      scanFrames r.pmm.bitmap 0 r.pmm.nextHint = none ∧
      ∀ r', Reachable r' → SameFrames r.pmm r'.pmm → ∀ calls, (∀ call ∈ calls, Wide call) →
        results r' calls = results r calls := by
  obtain ⟨hinv, hcounted⟩ := h.invariant
  have hlow := reachable_hintLow h
  refine ⟨hlow, ?_, ?_, hlow.second_search, ?_⟩
  · intro f hleast
    rcases pmmAllocFrame_lowest hlow hcounted hinv.initialized with
      ⟨hempty, -⟩ | ⟨g, hleast', htake⟩
    · rw [hempty] at hleast
      exact absurd hleast.1 (Finset.notMem_empty f)
    · obtain rfl : f = g := hleast.unique hleast'
      rw [htake, takeFrame_address hinv (mem_clearFrames.mp hleast.1).1, pmmPageSize, Nat.mul_comm]
  · rcases pmmAllocFrame_lowest hlow hcounted hinv.initialized with
      ⟨hempty, hnone⟩ | ⟨f, hleast, htake⟩
    · rw [hnone]
      exact ⟨fun _ => hempty, fun _ => rfl⟩
    · rw [htake, takeFrame_address hinv (mem_clearFrames.mp hleast.1).1]
      constructor
      · intro hinvalid
        exact absurd hinvalid (page_ne_invalid f)
      · intro hempty
        rw [hempty] at hleast
        exact absurd hleast.1 (Finset.notMem_empty f)
  · intro r' h' hsame calls hwide
    obtain ⟨hinv', hcounted'⟩ := h'.invariant
    rw [hsame.frameCount] at hinv'
    exact Twins.results_eq ⟨hinv, hinv', hcounted, hcounted', hlow, reachable_hintLow h', hsame⟩
      hwide

/-- Two frames, and the same frames with another hint. -/
theorem reachable_lowestFirst_twoFrames :
    (pmmAllocFrame twoFrames.pmm).2 = 4096 * 1 ∧
      twoFrames.pmm.nextHint = 0 ∧ (after twoFrames [.alloc, .free 4096]).pmm.nextHint = 1 ∧
      results (after twoFrames [.alloc, .free 4096]) [.alloc, .alloc] =
        results twoFrames [.alloc, .alloc] := by
  have hstart : Reachable twoFrames :=
    reachable_after_twoFrames (show ∀ call ∈ [], Wide call by decide)
  have hlater : Reachable (after twoFrames [.alloc, .free 4096]) :=
    reachable_after_twoFrames (by decide)
  have hclear : clearFrames twoFrames.pmm = {1} := by decide
  have hleast : IsLeast {g | g ∈ clearFrames twoFrames.pmm} 1 := by
    rw [hclear]
    exact ⟨Finset.mem_singleton_self 1, fun g hg => (Finset.mem_singleton.mp hg).ge⟩
  obtain ⟨-, hlowest, -, -, hsame⟩ := reachable_lowestFirst hstart
  refine ⟨hlowest 1 hleast, by decide, by decide, hsame _ hlater ⟨by decide, ?_⟩ _ (by decide)⟩
  decide

end Mcsos.PmmLowestFirst

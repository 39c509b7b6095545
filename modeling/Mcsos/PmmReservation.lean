import Mcsos.PmmLowestFirst

/-!
What a reservation is worth.  `pmm_reserve_range` answers that it has reserved a range whatever
`mark_range_used` did with it: a range that reaches the last page of the address space is
passed over, and a frame of the range that is handed out comes back with its release.  The
bitmap does not tell the frames that are handed out from those that are withheld, so
`pmm_free_frame` takes both.
-/

namespace Mcsos.PmmReservation

open Mcsos.CallSystem
open Mcsos.PmmModel
open Mcsos.PmmBitmap
open Mcsos.PmmOwnership
open Mcsos.PmmReserved
open Mcsos.PmmCounters
open Mcsos.PmmLowestFirst

/-- The bytes of a range, in exact integers. -/
def rangeBytes (base length : Nat) : Set Nat := Set.Ico base (base + length)

/-- After the reservation of the range, clients that free only what they hold never get a
frame of it. -/
def ReservationHolds (r : PmmRun) (base length : Nat) : Prop :=
  ∀ trace r', Run pmmSystem (r.step (.reserve base length)).1 trace r' →
    ∀ physAddr, (.alloc, .frame physAddr) ∈ trace → physAddr ≠ pmmInvalidFrame →
      Disjoint (Set.Ico physAddr (physAddr + pmmPageSize)) (rangeBytes base length)

/-- No frame of the range is handed out, and the range ends before the last page of the
address space or has no free frame. -/
def Reservable (r : PmmRun) (base length : Nat) : Prop :=
  ∀ f, ¬Disjoint (frameBytes f) (rangeBytes base length) →
    f ∉ (ownership r).outstanding ∧
      (base + length ≤ 2 ^ 64 - 4096 ∨ f ∉ (ownership r).free)

theorem frameBytes_overlap_iff {f base length : Nat} :
    ¬Disjoint (frameBytes f) (rangeBytes base length) ↔
      0 < length ∧ base < 4096 * f + 4096 ∧ 4096 * f < base + length := by
  unfold frameBytes rangeBytes
  rw [Set.Ico_disjoint_Ico]
  omega

theorem pageBytes_eq (f : Nat) :
    Set.Ico (f * pmmPageSize) (f * pmmPageSize + pmmPageSize) = frameBytes f := by
  rw [frameBytes, pmmPageSize, Nat.mul_comm]

section Reservation

variable {n : Nat} {r : PmmRun} {base length f : Nat}

theorem free_after_reserve (hinv : PmmInv n r) (hbase : base < 2 ^ 64) (hlength : length ≠ 0) :
    f ∈ (ownership (r.step (.reserve base length)).1).free ↔
      f ∈ (ownership r).free ∧ ¬RangeReserves base length f := by
  have hgranted : ¬(r.pmm.initialized = false ∨ length = 0) := by
    rw [hinv.initialized]
    simpa using hlength
  have hshape := (reserves_markRangeUsed r.pmm base length).shape
  simp only [ownership, PmmRun.step, pmmReserveRange, if_neg hgranted, Set.mem_ofPred_eq,
    hshape.frameCount, and_assoc]
  apply and_congr_right
  intro hlt
  have hmax : r.pmm.maxPhys = 4096 * r.pmm.frameCount := by
    rw [hinv.maxPhys_eq, hinv.frameCount_eq]
  exact markRangeUsed_clear hmax hbase hlt

theorem withheld_after_reserve (hinv : PmmInv n r) (hbase : base < 2 ^ 64) (hlength : length ≠ 0)
    (hcan : Reservable r base length)
    (hoverlap : ¬Disjoint (frameBytes f) (rangeBytes base length)) (hlt : f < n) :
    f ∈ (ownership (r.step (.reserve base length)).1).withheld := by
  obtain ⟨hout, hfree⟩ := hcan f hoverlap
  obtain ⟨hpos, hlow, hhigh⟩ := frameBytes_overlap_iff.mp hoverlap
  have hpart := (step_reserve hinv base length).1.partition
  have hnot : f ∉ (ownership (r.step (.reserve base length)).1).free := by
    rw [free_after_reserve hinv hbase hlength]
    rintro ⟨hclear, hspared⟩
    rcases hfree with hend | hused
    · exact hspared ⟨hpos, hend, hlow, hhigh⟩
    · exact hused hclear
  rcases (hpart.cover f).mp hlt with hclear | hheld | hwithheld
  · exact absurd hclear hnot
  · exact absurd hheld hout
  · exact hwithheld

theorem eventually_granted (hinv : PmmInv n r) (hcounted : Counted r.pmm) (hlow : HintLow r.pmm)
    (hf : f ∈ clearFrames r.pmm) :
    ∃ trace r', Run pmmSystem r trace r' ∧ (.alloc, .frame (f * pmmPageSize)) ∈ trace := by
  -- every allocation but that of `f` itself leaves `f` among fewer free frames
  induction hcard : (clearFrames r.pmm).card generalizing r with
  | zero =>
      rw [Finset.card_eq_zero] at hcard
      rw [hcard] at hf
      exact absurd hf (Finset.notMem_empty f)
  | succ card ih =>
      rcases pmmAllocFrame_lowest hlow hcounted hinv.initialized with
        ⟨hempty, -⟩ | ⟨g, hleast, htake⟩
      · rw [hempty] at hf
        exact absurd hf (Finset.notMem_empty f)
      · obtain ⟨hlt, hclear⟩ := mem_clearFrames.mp hleast.1
        have hallowed : pmmSystem.allowed r .alloc := trivial
        have hstep := step_alloc_takeFrame hinv (hlt.trans_eq hinv.frameCount_eq) htake
        rcases eq_or_ne f g with rfl | hne
        · exact ⟨_, _, .cons hallowed (congrArg some hstep) (.nil _), List.mem_cons_self⟩
        · have hrest : clearFrames (r.step .alloc).1.pmm = (clearFrames r.pmm).erase g := by
            rw [hstep]
            exact clearFrames_markFrameUsed hlt
          obtain ⟨trace, r', hrun, hmem⟩ := ih (pmmInv_call hinv .alloc) (hcounted.step .alloc)
            (hintLow_step hlow hcounted hinv .alloc)
            (by rw [hrest]; exact Finset.mem_erase.mpr ⟨hne, hf⟩)
            (by rw [hrest, Finset.card_erase_of_mem hleast.1, hcard, Nat.add_sub_cancel])
          exact ⟨_, r', .cons hallowed rfl hrun, List.mem_cons_of_mem _ hmem⟩

theorem outstanding_granted (hinv : PmmInv n r) (hcounted : Counted r.pmm) (hlow : HintLow r.pmm)
    (hout : f ∈ (ownership r).outstanding) :
    ∃ trace r', Run pmmSystem r trace r' ∧ (.alloc, .frame (f * pmmPageSize)) ∈ trace := by
  have hallowed : pmmSystem.allowed r (.free (f * pmmPageSize)) := hout
  have hfree : f ∈ (ownership (r.step (.free (f * pmmPageSize))).1).free := by
    obtain ⟨-, -, hlt, -⟩ := hinv.out_used _ hout
    have hframe : f * pmmPageSize / 4096 = f := Nat.mul_div_cancel f (by decide)
    rw [hframe, ← hinv.frameCount_eq] at hlt
    have hnext : r.step (.free (f * pmmPageSize)) =
        (⟨markFrameFree r.pmm f, r.outstanding.filter (· != f * pmmPageSize)⟩, .flag true) := by
      simp only [PmmRun.step, pmmFreeFrame_outstanding hinv hout, hframe]
    rw [hnext, ownership_releaseFrame hlt hout]
    exact Set.mem_insert f _
  obtain ⟨trace, r', hrun, hmem⟩ := eventually_granted (pmmInv_call hinv _) (hcounted.step _)
    (hintLow_step hlow hcounted hinv _) (mem_clearFrames.mpr hfree)
  exact ⟨_, r', .cons hallowed rfl hrun, List.mem_cons_of_mem _ hmem⟩

/-- A granted reservation holds exactly if none of its frames is handed out when it is made,
and it ends before the last page of the address space or has no free frame. -/
theorem reservationHolds_iff (h : Reachable r) (hbase : base < 2 ^ 64)
    (hgranted : (r.step (.reserve base length)).2 = .flag true) :
    ReservationHolds r base length ↔ Reservable r base length := by
  obtain ⟨hinv, hcounted⟩ := h.invariant
  have hlow := reachable_hintLow h
  have hlength : length ≠ 0 := by
    rintro rfl
    simp [PmmRun.step, pmmReserveRange] at hgranted
  obtain ⟨hinv', -⟩ := step_reserve hinv base length
  constructor
  · intro hholds f hoverlap
    have hnever : ∀ trace r', Run pmmSystem (r.step (.reserve base length)).1 trace r' →
        (.alloc, .frame (f * pmmPageSize)) ∉ trace := by
      intro trace r' hrun hmem
      have hdisjoint := hholds trace r' hrun _ hmem (page_ne_invalid f)
      rw [pageBytes_eq] at hdisjoint
      exact hoverlap hdisjoint
    constructor
    · intro hout
      obtain ⟨trace, r', hrun, hmem⟩ := outstanding_granted hinv' (hcounted.step _)
        (hintLow_step hlow hcounted hinv _) (f := f) hout
      exact hnever trace r' hrun hmem
    · rw [or_iff_not_imp_left]
      intro hend hfree
      have hspared : ¬RangeReserves base length f := fun hreserves => hend hreserves.2.1
      have hstill := (free_after_reserve hinv hbase hlength).mpr ⟨hfree, hspared⟩
      obtain ⟨trace, r', hrun, hmem⟩ := eventually_granted hinv' (hcounted.step _)
        (hintLow_step hlow hcounted hinv _) (mem_clearFrames.mpr hstill)
      exact hnever trace r' hrun hmem
  · intro hcan trace r' hrun physAddr hmem hvalid
    obtain ⟨-, hspec⟩ := pmmInv_run hrun hinv'
    obtain ⟨hlt, hnot, hpage⟩ := specRun_granted_not_withheld hspec hinv'.partition hmem hvalid
    obtain ⟨f, rfl⟩ : ∃ f, physAddr = f * pmmPageSize := ⟨_, hpage.symm⟩
    rw [Nat.mul_div_cancel f (by decide)] at hlt hnot
    rw [pageBytes_eq]
    by_contra hoverlap
    exact hnot (withheld_after_reserve hinv hbase hlength hcan hoverlap hlt)

end Reservation

theorem reservationHolds_iff_twoFrames :
    (twoFrames.step (.reserve 4096 4096)).2 = .flag true ∧
      ReservationHolds twoFrames 4096 4096 := by
  have hreach : Reachable twoFrames :=
    reachable_after_twoFrames (show ∀ call ∈ [], Wide call by decide)
  have hgranted : (twoFrames.step (.reserve 4096 4096)).2 = .flag true := by decide
  refine ⟨hgranted, (reservationHolds_iff hreach (by decide) hgranted).mpr fun f _ => ?_⟩
  exact ⟨List.not_mem_nil, .inl (by decide)⟩

/-- The only usable frame is handed out after it was reserved: it lies in a range that reaches
the end of the address space, or it was handed out when it was reserved and was freed after. -/
theorem not_reservationHolds_twoFrames :
    (Reachable twoFrames ∧
        (twoFrames.step (.reserve 4096 (2 ^ 64 - 4096))).2 = .flag true ∧
        ¬ReservationHolds twoFrames 4096 (2 ^ 64 - 4096)) ∧
      Reachable (after twoFrames [.alloc]) ∧
        ((after twoFrames [.alloc]).step (.reserve 4096 4096)).2 = .flag true ∧
        ¬ReservationHolds (after twoFrames [.alloc]) 4096 4096 := by
  have hoverlap : ∀ length, 0 < length →
      ¬Disjoint (Set.Ico 4096 (4096 + pmmPageSize)) (rangeBytes 4096 length) := by
    intro length hpos
    change ¬Disjoint (frameBytes 1) (rangeBytes 4096 length)
    rw [frameBytes_overlap_iff]
    omega
  refine ⟨⟨?_, by decide, fun hholds => ?_⟩, ?_, by decide, fun hholds => ?_⟩
  · exact reachable_after_twoFrames (show ∀ call ∈ [], Wide call by decide)
  · have hrun : Run pmmSystem (twoFrames.step (.reserve 4096 (2 ^ 64 - 4096))).1
        [(.alloc, .frame 4096)] _ :=
      .cons trivial (pmmSystem_step (by decide)) (.nil _)
    exact hoverlap _ (by decide) (hholds _ _ hrun 4096 List.mem_cons_self (by decide))
  · exact reachable_after_twoFrames (show ∀ call ∈ [.alloc], Wide call by decide)
  · have hout : 4096 ∈
        ((after twoFrames [.alloc]).step (.reserve 4096 4096)).1.outstanding := by
      decide
    have hrun : Run pmmSystem ((after twoFrames [.alloc]).step (.reserve 4096 4096)).1
        [(.free 4096, .flag true), (.alloc, .frame 4096)] _ :=
      .cons hout (pmmSystem_step (by decide)) (.cons trivial (pmmSystem_step (by decide)) (.nil _))
    exact hoverlap _ (by decide) (hholds _ _ hrun 4096
      (List.mem_cons_of_mem _ List.mem_cons_self) (by decide))

/-- A page, other than the first, that is in use and not handed out. -/
def WithheldPage (r : PmmRun) (physAddr : Nat) : Prop :=
  physAddr ≠ 0 ∧ physAddr % 4096 = 0 ∧ physAddr / 4096 ∈ (ownership r).withheld

section Frees

variable {n : Nat} {r r' : PmmRun} {f physAddr : Nat}

theorem usedPage_iff (hinv : PmmInv n r) :
    UsedPage r.pmm physAddr ↔ physAddr ∈ r.outstanding ∨ WithheldPage r physAddr := by
  constructor
  · rintro ⟨hne, halign, hlt, hset⟩
    have hpage : physAddr / 4096 * pmmPageSize = physAddr := by
      rw [pmmPageSize]
      omega
    rw [or_iff_not_imp_left]
    intro hout
    refine ⟨hne, halign, hlt, hset, ?_⟩
    rw [hpage]
    exact hout
  · rintro (hout | ⟨hne, halign, hlt, hset, -⟩)
    · rw [UsedPage, hinv.frameCount_eq]
      exact hinv.out_used physAddr hout
    · exact ⟨hne, halign, hlt, hset⟩

theorem step_free_refused (hinv : PmmInv n r) (hunused : ¬UsedPage r.pmm physAddr) :
    r.step (.free physAddr) = (r, .flag false) := by
  have hout : ∀ p ∈ r.outstanding, (p != physAddr) = true := by
    intro p hp
    rw [bne_iff_ne]
    rintro rfl
    exact hunused ((usedPage_iff hinv).mpr (.inl hp))
  simp only [PmmRun.step, pmmFreeFrame_refused hinv hunused, List.filter_eq_self.mpr hout]

theorem step_free_true_iff (hinv : PmmInv n r) :
    (r.step (.free physAddr)).2 = .flag true ↔
      physAddr ∈ r.outstanding ∨ WithheldPage r physAddr := by
  rw [← usedPage_iff hinv]
  constructor
  · intro hfreed
    by_contra hunused
    rw [step_free_refused hinv hunused] at hfreed
    cases hfreed
  · intro hused
    simp only [PmmRun.step, pmmFreeFrame_used hinv hused]

/-- A withheld frame remains withheld, whatever is called, until it is freed itself. -/
theorem withheld_or_freed (hinv : PmmInv n r) (hf : f ∈ (ownership r).withheld) (call : PmmCall) :
    f ∈ (ownership (r.step call).1).withheld ∨
      call = .free (f * pmmPageSize) ∧ (r.step call).2 = .flag true := by
  cases call with
  | alloc => exact .inl ((step_alloc hinv).2.withheld_subset hf)
  | reserve base length => exact .inl ((step_reserve hinv base length).2.withheld_subset hf)
  | free physAddr =>
      by_cases hused : UsedPage r.pmm physAddr
      · rcases eq_or_ne physAddr (f * pmmPageSize) with rfl | hne
        · exact .inr ⟨rfl, (step_free_true_iff hinv).mpr ((usedPage_iff hinv).mp hused)⟩
        · have hfreed := pmmFreeFrame_used hinv hused
          obtain ⟨hlt, hset, hout⟩ := hf
          obtain ⟨-, halign, hpage, -⟩ := hused
          have hother : physAddr / 4096 ≠ f := by
            rw [pmmPageSize] at hne
            omega
          left
          simp only [PmmRun.step, hfreed]
          refine ⟨?_, ?_, fun hmem => hout (List.mem_of_mem_filter hmem)⟩
          · show f < (markFrameFree r.pmm (physAddr / 4096)).frameCount
            rw [(markFrameFree_shape r.pmm _).frameCount]
            exact hlt
          · show bitmapTest (markFrameFree r.pmm (physAddr / 4096)).bitmap f = true
            rw [markFrameFree_test_of_lt hpage, hset, decide_eq_false hother]
            rfl
      · rw [step_free_refused hinv hused]
        exact .inl hf

theorem withheld_freed_before_grant {before later : List (PmmCall × PmmResult)}
    (hinv : PmmInv n r) (hf : f ∈ (ownership r).withheld)
    (hrun : Run pmmCallSystem r (before ++ (.alloc, .frame (f * pmmPageSize)) :: later) r') :
    (.free (f * pmmPageSize), .flag true) ∈ before := by
  induction before generalizing r with
  | nil =>
      cases hrun with
      | cons _ hstep _ =>
          have hnext := Option.some.inj hstep
          have hgrant := (step_alloc hinv).2
          rw [hnext] at hgrant
          obtain ⟨hfree, -, -⟩ := hgrant.granted_mem (page_ne_invalid f)
          rw [Nat.mul_div_cancel f (by decide)] at hfree
          exact absurd hf (Set.disjoint_left.mp hinv.partition.free_withheld hfree)
  | cons event before ih =>
      cases hrun with
      | @cons _ t _ call result _ _ hstep hrest =>
          have hnext : r.step call = (t, result) := Option.some.inj hstep
          have hinv' := pmmInv_call hinv call
          have hkept := withheld_or_freed hinv hf call
          rw [hnext] at hinv' hkept
          rcases hkept with hstill | ⟨rfl, rfl⟩
          · exact List.mem_cons_of_mem _ (ih hinv' hstill hrest)
          · exact List.mem_cons_self

end Frees

/-- `pmm_free_frame` frees a page exactly if it is handed out, or withheld and not the first;
otherwise it changes nothing.  A withheld frame is handed out only after a free of its own
address, and the first one is never free. -/
theorem reachable_frees {r : PmmRun} (h : Reachable r) :
    (∀ physAddr, (r.step (.free physAddr)).2 = .flag true ↔
        physAddr ∈ r.outstanding ∨ WithheldPage r physAddr) ∧
      (∀ physAddr, (r.step (.free physAddr)).2 ≠ .flag true →
        r.step (.free physAddr) = (r, .flag false)) ∧
      (∀ before later f r', f ∈ (ownership r).withheld →
        Run pmmCallSystem r (before ++ (.alloc, .frame (f * pmmPageSize)) :: later) r' →
          (.free (f * pmmPageSize), .flag true) ∈ before) ∧
      0 ∉ (ownership r).free := by
  obtain ⟨hinv, -⟩ := h.invariant
  refine ⟨fun physAddr => step_free_true_iff hinv, ?_, ?_, ?_⟩
  · intro physAddr hrefused
    apply step_free_refused hinv
    rw [usedPage_iff hinv, ← step_free_true_iff hinv]
    exact hrefused
  · intro before later f r' hf hrun
    exact withheld_freed_before_grant hinv hf hrun
  · rintro ⟨-, hclear⟩
    exact absurd (hclear.symm.trans hinv.zero_used) Bool.false_ne_true

/-- Four frames, of which the third is reserved. -/
def fourFrames : PmmRun := startRun pmmZeroState (some reservedInside) (some fun _ => 0) 1 16384

theorem reachable_fourFrames : Reachable fourFrames :=
  ⟨_, _, _, _, _, [], by decide, by decide, .nil _⟩

theorem reachable_frees_fourFrames :
    fourFrames.step (.free 4096) = (fourFrames, .flag false) ∧ WithheldPage fourFrames 8192 := by
  obtain ⟨hfrees, hrefused, -⟩ := reachable_frees reachable_fourFrames
  have hwithheld := (hfrees 8192).mp (by decide)
  exact ⟨hrefused 4096 (by decide), hwithheld.resolve_left List.not_mem_nil⟩

/-- The third of four frames is reserved by the boot map and never handed out; it is freed and
then handed out. -/
theorem not_only_outstanding_freed :
    ¬(∀ r, Reachable r → ∀ physAddr < 2 ^ 64,
        (r.step (.free physAddr)).2 = .flag true → physAddr ∈ r.outstanding) ∧
      ⟨8192, 4096, 2⟩ ∈ reservedInside ∧
      results fourFrames [.free 8192, .alloc, .alloc] =
        [.flag true, .frame 4096, .frame 8192] := by
  refine ⟨fun h => ?_, by decide, by decide⟩
  have hout := h fourFrames reachable_fourFrames 8192 (by decide) (by decide)
  exact List.not_mem_nil hout

end Mcsos.PmmReservation

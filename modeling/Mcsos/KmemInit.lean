import Mcsos.KmemSplit
import Mcsos.KmemValidate

namespace Mcsos.KmemInit

open Mcsos.ByteMemory
open Mcsos.KmemModel
open Mcsos.KmemHeaders
open Mcsos.KmemBlocks
open Mcsos.KmemSegments
open Mcsos.KmemSplit
open Mcsos.KmemValidate
open Mcsos.WordArithmetic

/-- The first address of the heap, in exact integers. -/
def heapStart (base : Nat) : Nat := (base + 15) / 16 * 16

/-- The address behind the heap, in exact integers. -/
def heapStop (base bytes : Nat) : Nat := (base + bytes) / 16 * 16

/-- The arguments that one of the early checks refuses. -/
def Rejected (base bytes : Nat) : Prop :=
  base = 0 ∨ 2 ^ 64 - 16 < base ∨ base + bytes < heapStart base + 96

/-- The state in which the early checks leave the rest of `kmem_init`. -/
def freshHeap (m : ByteMem) (start stop : Nat) : KmemState :=
  ⟨freshHeader m start (stop - start - 48) 0 0, start, stop % 2 ^ 64, start, true⟩

section Init

variable {base bytes : Nat}

theorem kmemInit_cases (s : KmemState) (hbase : base < 2 ^ 64) (hbytes : bytes < 2 ^ 64) :
    (Rejected base bytes ∧ ∃ rc, rc ≠ 0 ∧ kmemInit s base bytes = (s, rc)) ∨
      (¬Rejected base bytes ∧
        kmemInit s base bytes =
          (freshHeap s.mem (heapStart base) (heapStop base bytes),
            kmemValidate (freshHeap s.mem (heapStart base) (heapStop base bytes)))) := by
  have hstart : kmemAlignUpPtr base kmemAlign = (base + 15) % 2 ^ 64 / 16 * 16 :=
    kmemAlignUpPtr_align base
  have hround : heapStart base = (base + 15) / 16 * 16 := rfl
  unfold kmemInit
  generalize kmemAlignUpPtr base kmemAlign = start at *
  by_cases harg : base = 0 ∨ bytes < 80
  · refine .inl ⟨?_, -1, by decide, if_pos harg⟩
    rcases harg with hnull | hbytes
    · exact .inl hnull
    · unfold Rejected
      omega
  rw [sizeofKmemBlock, kmemMinSplit, if_neg harg]
  by_cases hwrap : start = 0 ∨ start < base
  · refine .inl ⟨.inr (.inl ?_), -2, by decide, if_pos hwrap⟩
    omega
  rw [if_neg hwrap]
  obtain rfl : heapStart base = start := by omega
  have hlost : (heapStart base + 2 ^ 64 - base) % 2 ^ 64 = heapStart base - base := by omega
  have husable : (bytes + 2 ^ 64 - (heapStart base - base)) % 2 ^ 64 &&&
      (2 ^ 64 - 1 - (kmemAlign - 1)) =
      (bytes + 2 ^ 64 - (heapStart base - base)) % 2 ^ 64 / 16 * 16 :=
    and_highMask 4 64 (by omega) (Nat.mod_lt _ (by omega))
  simp only [hlost, husable]
  by_cases hsmall : bytes ≤ (heapStart base - base + 48 + 32) % 2 ^ 64
  · refine .inl ⟨.inr (.inr ?_), -3, by decide, if_pos hsmall⟩
    omega
  rw [if_neg hsmall]
  have hrest : (bytes + 2 ^ 64 - (heapStart base - base)) % 2 ^ 64 / 16 * 16 =
      heapStop base bytes - heapStart base := by
    unfold heapStop
    omega
  rw [hrest]
  by_cases htiny : heapStop base bytes - heapStart base ≤ 48 + 32
  · refine .inl ⟨.inr (.inr ?_), -4, by decide, if_pos htiny⟩
    unfold heapStop at htiny
    omega
  rw [if_neg htiny]
  have hsize : (heapStop base bytes - heapStart base + 2 ^ 64 - 48) % 2 ^ 64 =
      heapStop base bytes - heapStart base - 48 := by
    unfold heapStop
    omega
  have hstop : heapStart base + (heapStop base bytes - heapStart base) = heapStop base bytes := by
    omega
  refine .inr ⟨?_, ?_⟩
  · unfold Rejected
    unfold heapStop at htiny
    omega
  · rw [hsize, hstop]
    rfl

theorem segment_freshHeap (m : ByteMem) {start stop : Nat} (hbig : start + 96 ≤ stop)
    (hstop : stop < 2 ^ 64) :
    Segment stop (freshHeap m start stop).mem 0 start [⟨stop - start - 48, true⟩] := by
  have haddr : start + 48 + (stop - start - 48) = stop := by omega
  refine ⟨?_, trivial⟩
  rw [freshHeap, header_freshHeader, blockHeader, nextPtr, haddr, if_pos rfl,
    Nat.mod_eq_of_lt (by omega : stop - start - 48 < 2 ^ 64)]
  rfl

theorem kmemValidate_freshHeap (m : ByteMem) {start stop : Nat} (hpos : 0 < start)
    (hstart : start % 16 = 0) (hstop : stop % 16 = 0) (hbig : start + 96 ≤ stop)
    (hend : stop < 2 ^ 64) : kmemValidate (freshHeap m start stop) = 0 := by
  have hheapEnd : (freshHeap m start stop).gHeapEnd = stop := Nat.mod_eq_of_lt hend
  have hsegment : Segment (freshHeap m start stop).gHeapEnd (freshHeap m start stop).mem 0 start
      [⟨stop - start - 48, true⟩] := by
    rw [hheapEnd]
    exact segment_freshHeap m hbig hend
  have hhere : nextPtr (freshHeap m start stop).gHeapEnd start = start := by
    rw [hheapEnd]
    exact if_neg (by omega)
  have hloop : kmemValidateLoop (freshHeap m start stop) kmemGuardLimit 0 start
      (nextPtr (freshHeap m start stop).gHeapEnd start) =
        if [(⟨stop - start - 48, true⟩ : Block)].length ≤ kmemGuardLimit then 0 else -3 := by
    refine kmemValidateLoop_segment hsegment ?_ hstart hpos le_rfl ?_ (hheapEnd.trans_lt hend)
    · simp only [List.mem_cons, List.not_mem_nil, or_false, forall_eq]
      omega
    · rw [hheapEnd]
      simp only [extent_cons, extent_nil]
      omega
  rw [hhere] at hloop
  have hargs : ¬((freshHeap m start stop).gInitialized = false ∨
      (freshHeap m start stop).gHeapBase = 0 ∨
      (freshHeap m start stop).gHeapEnd ≤ (freshHeap m start stop).gHeapBase ∨
      (freshHeap m start stop).gHead = 0) := by
    rw [hheapEnd]
    simp only [freshHeap, Bool.true_eq_false, false_or]
    omega
  rw [kmemValidate, if_neg hargs, if_neg (fun hne => hne rfl)]
  exact hloop

theorem kmemValidate_wrapped (m : ByteMem) {start stop : Nat} (hstop : 2 ^ 64 ≤ stop)
    (hsize : stop ≤ start + 2 ^ 64) : kmemValidate (freshHeap m start stop) = -1 := by
  rw [kmemValidate, if_pos]
  refine .inr (.inr (.inl ?_))
  show stop % 2 ^ 64 ≤ start
  omega

theorem heapStart_spec (base : Nat) :
    base ≤ heapStart base ∧ heapStart base < base + 16 ∧ heapStart base % 16 = 0 := by
  unfold heapStart
  omega

theorem heapStop_spec (base bytes : Nat) :
    heapStop base bytes ≤ base + bytes ∧ base + bytes < heapStop base bytes + 16 ∧
      heapStop base bytes % 16 = 0 := by
  unfold heapStop
  omega

theorem kmemInit_succeeds (s : KmemState) (hbase : base < 2 ^ 64) (hbytes : bytes < 2 ^ 64) :
    (kmemInit s base bytes).2 = 0 ↔ ¬Rejected base bytes ∧ base + bytes < 2 ^ 64 := by
  obtain ⟨hstart, hlost, haligned⟩ := heapStart_spec base
  obtain ⟨hstop, hcut, haligned'⟩ := heapStop_spec base bytes
  rcases kmemInit_cases s hbase hbytes with ⟨hrejected, rc, hrc, heq⟩ | ⟨haccepted, heq⟩
  · rw [heq]
    constructor
    · intro hzero
      exact absurd hzero hrc
    · intro h
      exact absurd hrejected h.1
  · have hargs := haccepted
    rw [Rejected, not_or, not_or] at hargs
    rw [heq]
    constructor
    · intro hzero
      refine ⟨haccepted, ?_⟩
      by_contra hwraps
      rw [kmemValidate_wrapped s.mem (by omega) (by omega)] at hzero
      cases hzero
    · rintro ⟨-, hend⟩
      exact kmemValidate_freshHeap s.mem (by omega) haligned haligned' (by omega) (by omega)

theorem kmemInit_eq {s : KmemState} (hbase : base < 2 ^ 64) (hbytes : bytes < 2 ^ 64)
    (hinit : (kmemInit s base bytes).2 = 0) :
    (kmemInit s base bytes).1 = freshHeap s.mem (heapStart base) (heapStop base bytes) := by
  rcases kmemInit_cases s hbase hbytes with ⟨-, rc, hrc, heq⟩ | ⟨-, heq⟩
  · rw [heq] at hinit
    exact absurd hinit hrc
  · rw [heq]

/-- The region is not the whole address space but its first and last sixteen bytes. -/
def PartOfSpace (base bytes : Nat) : Prop := 16 < base ∨ base + bytes < 2 ^ 64 - 16

theorem kmemInit_layout {s : KmemState} (hbase : base < 2 ^ 64) (hbytes : bytes < 2 ^ 64)
    (hpart : PartOfSpace base bytes) (hinit : (kmemInit s base bytes).2 = 0) :
    ∃ size, Layout (kmemInit s base bytes).1 [⟨size, true⟩] := by
  obtain ⟨haccepted, hend⟩ := (kmemInit_succeeds s hbase hbytes).mp hinit
  rw [kmemInit_eq hbase hbytes hinit]
  rw [Rejected, not_or, not_or] at haccepted
  obtain ⟨hstart, hlost, haligned⟩ := heapStart_spec base
  obtain ⟨hstop, hcut, haligned'⟩ := heapStop_spec base bytes
  have hheapEnd : (freshHeap s.mem (heapStart base) (heapStop base bytes)).gHeapEnd =
      heapStop base bytes := Nat.mod_eq_of_lt (by omega)
  refine ⟨heapStop base bytes - heapStart base - 48, rfl, rfl, ?_, haligned, ?_, ?_, ?_, by simp,
    ?_, ?_⟩
  · show 0 < heapStart base
    omega
  · omega
  · rw [hheapEnd]
    show heapStop base bytes < heapStart base + (2 ^ 64 - 32)
    rcases hpart with hbase | hshort
    · omega
    · omega
  · simp only [List.mem_cons, List.not_mem_nil, or_false, forall_eq]
    omega
  · rw [hheapEnd]
    show heapStart base + extent [_] = heapStop base bytes
    simp only [extent_cons, extent_nil]
    omega
  · rw [hheapEnd]
    exact segment_freshHeap s.mem (by omega) (by omega)

/-- A failed call changes neither the memory nor the globals, and a successful one puts the
heap into the region. -/
def FailsCleanly (s : KmemState) (base bytes : Nat) : Prop :=
  ((kmemInit s base bytes).2 ≠ 0 → (kmemInit s base bytes).1 = s) ∧
    ((kmemInit s base bytes).2 = 0 →
      base ≤ (kmemInit s base bytes).1.gHeapBase ∧
        (kmemInit s base bytes).1.gHeapBase < (kmemInit s base bytes).1.gHeapEnd ∧
        (kmemInit s base bytes).1.gHeapEnd ≤ base + bytes)

theorem failsCleanly_of_fits (s : KmemState) (hbase : base < 2 ^ 64) (hbytes : bytes < 2 ^ 64)
    (h : Rejected base bytes ∨ base + bytes < 2 ^ 64) : FailsCleanly s base bytes := by
  constructor
  · intro hfailed
    rcases kmemInit_cases s hbase hbytes with ⟨-, rc, -, heq⟩ | ⟨haccepted, -⟩
    · rw [heq]
    · have hzero := (kmemInit_succeeds s hbase hbytes).mpr ⟨haccepted, h.resolve_left haccepted⟩
      exact absurd hzero hfailed
  · intro hinit
    obtain ⟨haccepted, hend⟩ := (kmemInit_succeeds s hbase hbytes).mp hinit
    rw [Rejected, not_or, not_or] at haccepted
    obtain ⟨hstart, hlost, -⟩ := heapStart_spec base
    obtain ⟨hstop, hcut, -⟩ := heapStop_spec base bytes
    have hheapEnd : (freshHeap s.mem (heapStart base) (heapStop base bytes)).gHeapEnd =
        heapStop base bytes := Nat.mod_eq_of_lt (by omega)
    rw [kmemInit_eq hbase hbytes hinit, hheapEnd]
    show base ≤ heapStart base ∧ heapStart base < heapStop base bytes ∧ _
    omega

theorem not_failsCleanly_of_wraps {s : KmemState} (hbase : base < 2 ^ 64) (hbytes : bytes < 2 ^ 64)
    (hstate : s.gInitialized = false ∨ s.gHeapBase < s.gHeapEnd) (haccepted : ¬Rejected base bytes)
    (hwraps : 2 ^ 64 ≤ base + bytes) : ¬FailsCleanly s base bytes := by
  rintro ⟨hunchanged, -⟩
  have hfailed : (kmemInit s base bytes).2 ≠ 0 := by
    intro hzero
    have := ((kmemInit_succeeds s hbase hbytes).mp hzero).2
    omega
  have hsame := hunchanged hfailed
  rcases kmemInit_cases s hbase hbytes with ⟨hrejected, -⟩ | ⟨-, heq⟩
  · exact haccepted hrejected
  · rw [heq] at hsame
    obtain ⟨hstart, -, -⟩ := heapStart_spec base
    obtain ⟨hstop, hcut, haligned⟩ := heapStop_spec base bytes
    have hready : s.gInitialized = true := by rw [← hsame]; rfl
    have hfirst : s.gHeapBase = heapStart base := by rw [← hsame]; rfl
    have hlast : s.gHeapEnd = heapStop base bytes % 2 ^ 64 := by rw [← hsame]; rfl
    rcases hstate with huninitialised | hheap
    · rw [hready] at huninitialised
      cases huninitialised
    · rw [hfirst, hlast] at hheap
      omega

/-- A failed initialisation changes nothing exactly when the early checks refuse the region or
the region ends in the address space; for an allocator that is not initialised, or has a heap,
that is so of every single call. -/
theorem failsCleanly_iff (hbase : base < 2 ^ 64) (hbytes : bytes < 2 ^ 64) :
    ((∀ s, FailsCleanly s base bytes) ↔ Rejected base bytes ∨ base + bytes < 2 ^ 64) ∧
      ∀ s : KmemState, s.gInitialized = false ∨ s.gHeapBase < s.gHeapEnd →
        (FailsCleanly s base bytes ↔ Rejected base bytes ∨ base + bytes < 2 ^ 64) := by
  have hsingle : ∀ s : KmemState, s.gInitialized = false ∨ s.gHeapBase < s.gHeapEnd →
      (FailsCleanly s base bytes ↔ Rejected base bytes ∨ base + bytes < 2 ^ 64) := by
    intro s hstate
    constructor
    · intro hclean
      by_contra hwraps
      rw [not_or] at hwraps
      exact not_failsCleanly_of_wraps hbase hbytes hstate hwraps.1 (by omega) hclean
    · exact failsCleanly_of_fits s hbase hbytes
  refine ⟨⟨?_, fun h s => failsCleanly_of_fits s hbase hbytes h⟩, hsingle⟩
  intro hall
  exact (hsingle ⟨fun _ => 0, 0, 0, 0, false⟩ (.inl rfl)).mp (hall _)

theorem failsCleanly_iff_lastPage :
    FailsCleanly ⟨fun _ => 0, 0, 0, 0, false⟩ (2 ^ 64 - 4096) 2048 :=
  ((failsCleanly_iff (by decide) (by decide)).2 _ (.inl rfl)).mpr (.inr (by decide))

/-- Two pages from the start of the last page of the address space on. -/
theorem not_failsCleanly_lastPage :
    ¬FailsCleanly ⟨fun _ => 0, 0, 0, 0, false⟩ (2 ^ 64 - 4096) 8192 := by
  apply not_failsCleanly_of_wraps
  · decide
  · decide
  · exact .inl rfl
  · unfold Rejected heapStart
    decide
  · decide

end Init

end Mcsos.KmemInit

import Mathlib.Order.Bounds.Basic
import Mcsos.KmemHeap

namespace Mcsos.KmemFirstFit

open Mcsos.ByteMemory
open Mcsos.CallSystem
open Mcsos.KmemModel
open Mcsos.KmemHeaders
open Mcsos.KmemBlocks
open Mcsos.KmemSegments
open Mcsos.KmemOperations
open Mcsos.KmemRuns
open Mcsos.KmemHeap

/-- The bytes that the statistics account for. -/
def accounted (stats : KmemStats) : Nat :=
  stats.usedBytes + stats.freeBytes + 48 * stats.blockCount

section Statistics

variable {bs : List Block} {out : KmemStats}

theorem accounted_countBlock {b : Block} (hroom : accounted out + 48 + b.size < 2 ^ 64) :
    accounted (countBlock out b) = accounted out + 48 + b.size := by
  unfold accounted countBlock at *
  split
  · dsimp only
    omega
  · dsimp only
    omega

theorem accounted_foldl (hroom : accounted out + extent bs < 2 ^ 64) :
    accounted (bs.foldl countBlock out) = accounted out + extent bs := by
  induction bs generalizing out with
  | nil => rfl
  | cons b bs ih =>
      rw [extent_cons] at hroom
      have hblock : accounted (countBlock out b) = accounted out + 48 + b.size :=
        accounted_countBlock (by omega)
      rw [List.foldl_cons, ih (by omega), hblock, extent_cons]
      omega

theorem totalBytes_foldl : (bs.foldl countBlock out).totalBytes = out.totalBytes := by
  induction bs generalizing out with
  | nil => rfl
  | cons b bs ih =>
      rw [List.foldl_cons, ih]
      unfold countBlock
      split <;> rfl

theorem le_largestFree_countBlock {b : Block} {wanted : Nat} :
    wanted ≤ (countBlock out b).largestFree ↔ wanted ≤ out.largestFree ∨ Fits wanted b := by
  unfold countBlock Fits
  split
  case isTrue hfree =>
    simp only [hfree, true_and]
    split <;> omega
  case isFalse hused =>
    simp only [hused, false_and, or_false, Bool.false_eq_true]

theorem le_largestFree_foldl {wanted : Nat} :
    wanted ≤ (bs.foldl countBlock out).largestFree ↔
      wanted ≤ out.largestFree ∨ ∃ b ∈ bs, Fits wanted b := by
  induction bs generalizing out with
  | nil => simp
  | cons b bs ih =>
      rw [List.foldl_cons, ih, le_largestFree_countBlock, or_assoc, List.exists_mem_cons_iff]

end Statistics

theorem kmemGetStats_accounts {s : KmemState} {bs : List Block} (h : Layout s bs) :
    ∃ stats, kmemGetStats s = some stats ∧ accounted stats = stats.totalBytes ∧
      stats.totalBytes = s.gHeapEnd - s.gHeapBase ∧
      ∀ wanted, 0 < wanted → (wanted ≤ stats.largestFree ↔ ∃ b ∈ bs, Fits wanted b) := by
  have htiles := h.tiles
  have hend := h.end_bound
  refine ⟨_, kmemGetStats_layout h, ?_, totalBytes_foldl, ?_⟩
  · rw [accounted_foldl, totalBytes_foldl]
    · simp only [accounted]
      omega
    · simp only [accounted]
      omega
  · intro wanted hpos
    rw [le_largestFree_foldl]
    simp only [Nat.le_zero_eq]
    constructor
    · rintro (hzero | hfits)
      · omega
      · exact hfits
    · exact .inr

/-- `n` rounded up to a multiple of sixteen, in exact integers. -/
def roundUp (n : Nat) : Nat := (n + 15) / 16 * 16

/-- The free blocks of a list of headers that have room for `wanted` bytes. -/
def candidates (m : ByteMem) (blocks : List Nat) (wanted : Nat) : Set Nat :=
  { b | b ∈ blocks ∧ blockFree m b ≠ 0 ∧ wanted ≤ blockSize m b }

theorem mem_candidates {s : KmemState} {bs : List Block} (h : Layout s bs) {wanted a : Nat} :
    a ∈ candidates s.mem (addresses s.gHeapBase bs) wanted ↔
      ∃ b, (a, b) ∈ placed s.gHeapBase bs ∧ Fits wanted b := by
  unfold candidates Fits
  rw [Set.mem_ofPred_eq, mem_addresses]
  constructor
  · rintro ⟨⟨b, hmem⟩, hfree, hsize⟩
    obtain ⟨p, hheader⟩ := h.segment.header_of_placed hmem
    rw [blockFree_eq, hheader] at hfree
    rw [blockSize_eq, hheader] at hsize
    exact ⟨b, hmem, by simpa [blockHeader] using hfree, hsize⟩
  · rintro ⟨b, hmem, hfree, hsize⟩
    obtain ⟨p, hheader⟩ := h.segment.header_of_placed hmem
    rw [blockFree_eq, blockSize_eq, hheader]
    exact ⟨⟨b, hmem⟩, by simp [blockHeader, hfree], hsize⟩

theorem isLeast_candidates {s : KmemState} {pre post : List Block} {b : Block} {wanted : Nat}
    (h : Layout s (pre ++ b :: post)) (hfits : Fits wanted b)
    (hfirst : ∀ c ∈ pre, ¬Fits wanted c) :
    IsLeast (candidates s.mem (addresses s.gHeapBase (pre ++ b :: post)) wanted)
      (s.gHeapBase + extent pre) := by
  constructor
  · exact (mem_candidates h).mpr ⟨b, mem_placed_middle _ _ _ _, hfits⟩
  · intro a ha
    obtain ⟨c, hmem, hc⟩ := (mem_candidates h).mp ha
    rw [placed_append, List.mem_append] at hmem
    rcases hmem with hbefore | hafter
    · obtain ⟨first, rest, rfl, -⟩ := exists_split_of_placed hbefore
      exact absurd hc (hfirst c (by simp))
    · exact (placed_bounds hafter).1

theorem kmemAlignUpSize_roundUp {n : Nat} (hn : n < 2 ^ 64) :
    kmemAlignUpSize n kmemAlign = if roundUp n < 2 ^ 64 then roundUp n else 0 := by
  rw [kmemAlignUpSize_align]
  unfold roundUp
  split <;> omega

theorem kmemAlloc_firstFit {s : KmemState} {bs : List Block} (h : Layout s bs) {n : Nat}
    (hn : n < 2 ^ 64) :
    ∃ heap ptr, kmemAlloc s n = some (heap, ptr) ∧
      (ptr ≠ 0 ↔ 1 ≤ n ∧ ∃ b ∈ bs, Fits (roundUp n) b) ∧
      (ptr ≠ 0 → ∃ block, ptr = block + 48 ∧
        IsLeast (candidates s.mem (addresses s.gHeapBase bs) (roundUp n)) block) ∧
      (ptr = 0 → heap = s) := by
  have hround := kmemAlignUpSize_roundUp hn
  have hsmall : ∀ b ∈ bs, Fits (roundUp n) b → roundUp n < 2 ^ 64 := by
    intro b hb hfits
    obtain ⟨pre, post, rfl⟩ := List.append_of_mem hb
    have htiles := h.tiles
    have hend := h.end_bound
    rw [extent_append, extent_cons] at htiles
    exact lt_of_le_of_lt hfits.2 (by omega)
  rcases kmemAlloc_layout h hn with ⟨hnone, hwhy⟩ | ⟨heap, bs', ptr, pre, post, b, hsome, hserves⟩
  · refine ⟨s, 0, hnone, ?_, fun hne => absurd rfl hne, fun _ => rfl⟩
    constructor
    · exact fun hne => absurd rfl hne
    · rintro ⟨hpos, b, hb, hfits⟩
      rw [hround, if_pos (hsmall b hb hfits)] at hwhy
      rcases hwhy with hzero | hwrap | hnofit
      · omega
      · unfold roundUp at hwrap
        omega
      · exact absurd hfits (hnofit b hb)
  · obtain ⟨rfl, hfits, hfirst, henough, -, rfl, -, -, -, -⟩ := hserves
    have hpos : 0 < kmemAlignUpSize n kmemAlign := by
      rcases Nat.eq_zero_or_pos n with rfl | hpos
      · rw [kmemAlloc, if_pos (.inr rfl)] at hsome
        cases hsome
      · omega
    have heq : kmemAlignUpSize n kmemAlign = roundUp n := by
      rw [hround] at hpos ⊢
      split at hpos
      case isTrue hlt => rw [if_pos hlt]
      case isFalse => omega
    rw [heq] at hfits hfirst hpos
    refine ⟨heap, _, hsome, ?_, fun _ => ⟨_, rfl, isLeast_candidates h hfits hfirst⟩, ?_⟩
    · constructor
      · intro _
        refine ⟨?_, b, by simp, hfits⟩
        unfold roundUp at hpos
        omega
      · intro _
        omega
    · intro hzero
      omega

section Runs

variable {s : KmemState} {base bytes : Nat} {r : KmemRun} {trace : List (KmemCall × KmemResult)}

/-- After any run the statistics account for the whole heap, a request is served when it is not
empty and fits the largest free block, it is served from the lowest block that it fits, and a
refused request leaves the heap as it was. -/
theorem run_firstFit (hinit : (kmemInit s base bytes).2 = 0) (hend : base + bytes ≤ 2 ^ 64 - 4096)
    (hrun : Run kmemSystem (startRun s base bytes) trace r) :
    ∃ blocks stats, HeapTiling r.heap blocks ∧ kmemGetStats r.heap = some stats ∧
      stats.usedBytes + stats.freeBytes + 48 * stats.blockCount = stats.totalBytes ∧
      stats.totalBytes = r.heap.gHeapEnd - r.heap.gHeapBase ∧
      ∀ n < 2 ^ 64, ∃ heap ptr, kmemAlloc r.heap n = some (heap, ptr) ∧
        (ptr ≠ 0 ↔ 1 ≤ n ∧ roundUp n ≤ stats.largestFree) ∧
        (ptr ≠ 0 → ∃ block, ptr = block + 48 ∧
          IsLeast (candidates r.heap.mem blocks (roundUp n)) block) ∧
        (ptr = 0 → heap = r.heap) := by
  obtain ⟨bs, hinv⟩ := heapInv_run hinit hend hrun
  obtain ⟨stats, hstats, hsum, htotal, hlargest⟩ := kmemGetStats_accounts hinv.layout
  refine ⟨_, stats, tiling_of_layout hinv.layout, hstats, hsum, htotal, ?_⟩
  intro n hn
  obtain ⟨heap, ptr, halloc, hserved, hleast, hrefused⟩ := kmemAlloc_firstFit hinv.layout hn
  refine ⟨heap, ptr, halloc, ?_, hleast, hrefused⟩
  rw [hserved]
  apply and_congr_right
  intro hpos
  rw [hlargest]
  unfold roundUp
  omega

theorem run_firstFit_allocatedRun :
    ∃ stats, kmemGetStats allocatedRun.1.heap = some stats ∧
      stats.usedBytes + stats.freeBytes + 48 * stats.blockCount = stats.totalBytes ∧
      ∃ heap ptr, kmemAlloc allocatedRun.1.heap 100 = some (heap, ptr) ∧
        (ptr ≠ 0 ↔ 1 ≤ 100 ∧ roundUp 100 ≤ stats.largestFree) := by
  obtain ⟨_, stats, -, hstats, hsum, -, halloc⟩ :=
    run_firstFit (by decide : (kmemInit unusedHeap 4096 256).2 = 0) (by decide) run_allocatedRun
  obtain ⟨heap, ptr, hcall, hserved, -⟩ := halloc 100 (by decide)
  exact ⟨stats, hstats, hsum, heap, ptr, hcall, hserved⟩

/-- After any run, to allocate and free at once gives back the same headers at the same
addresses. -/
theorem run_alloc_free (hinit : (kmemInit s base bytes).2 = 0)
    (hend : base + bytes ≤ 2 ^ 64 - 4096)
    (hrun : Run kmemSystem (startRun s base bytes) trace r) {n : Nat} (hn : n < 2 ^ 64)
    {heap : KmemState} {ptr : Nat} (halloc : kmemAlloc r.heap n = some (heap, ptr))
    (hptr : ptr ≠ 0) :
    ∃ heap' rc blocks, kmemFreeChecked heap ptr = some (heap', rc) ∧
      heap'.gHeapBase = r.heap.gHeapBase ∧ heap'.gHeapEnd = r.heap.gHeapEnd ∧
      HeapTiling r.heap blocks ∧ HeapTiling heap' blocks ∧
      ∀ b ∈ blocks, header heap'.mem b = header r.heap.mem b := by
  obtain ⟨bs, hinv⟩ := heapInv_run hinit hend hrun
  rcases kmemAlloc_layout hinv.layout hn with
    ⟨hnone, -⟩ | ⟨heap₁, bs', ptr', pre, post, b, hsome, hserves⟩
  · rw [halloc] at hnone
    cases hnone
    exact absurd rfl hptr
  · cases halloc.symm.trans hsome
    obtain ⟨rfl, hfits, -, -, rfl, rfl, hlayout, hbaseEq, hendEq, -⟩ := hserves
    obtain ⟨size, rest, hcarve, hback⟩ :=
      freeBetween_carve (kmemAlignUpSize n kmemAlign) hfits.1 hinv.merged
    have hcarved : Layout heap (pre ++ ⟨size, false⟩ :: (rest ++ post)) := by
      rw [hcarve] at hlayout
      simpa using hlayout
    obtain ⟨m', hfree, hlayout', -⟩ := kmemFreeChecked_layout hcarved rfl
    rw [hback] at hlayout'
    have hpointer : heap.gHeapBase + extent pre + 48 = r.heap.gHeapBase + extent pre + 48 := by
      rw [hbaseEq]
    rw [hpointer] at hfree
    have haddresses : addresses heap.gHeapBase (pre ++ b :: post) =
        addresses r.heap.gHeapBase (pre ++ b :: post) := by
      rw [hbaseEq]
    have htiling := tiling_of_layout hlayout'
    rw [haddresses] at htiling
    have hsegment := hlayout'.segment
    dsimp only at hsegment
    rw [hbaseEq, hendEq] at hsegment
    refine ⟨_, _, _, hfree, hbaseEq, hendEq, tiling_of_layout hinv.layout, htiling, ?_⟩
    intro a ha
    obtain ⟨c, hc⟩ := mem_addresses.mp ha
    exact hinv.layout.segment.header_eq hsegment hc

theorem run_alloc_free_allocatedRun :
    ∃ heap heap' rc, kmemAlloc allocatedRun.1.heap 24 = some (heap, 4224) ∧
      kmemFreeChecked heap 4224 = some (heap', rc) ∧
      ∃ blocks, HeapTiling allocatedRun.1.heap blocks ∧ HeapTiling heap' blocks := by
  have hptr : (kmemAlloc allocatedRun.1.heap 24).map Prod.snd = some 4224 := by decide
  obtain ⟨⟨heap, ptr⟩, hcall, rfl⟩ := Option.map_eq_some_iff.mp hptr
  obtain ⟨heap', rc, blocks, hfree, -, -, htiling, htiling', -⟩ :=
    run_alloc_free (by decide : (kmemInit unusedHeap 4096 256).2 = 0) (by decide) run_allocatedRun
      (by decide) hcall (by decide)
  exact ⟨heap, heap', rc, hcall, hfree, blocks, htiling, htiling'⟩

end Runs

end Mcsos.KmemFirstFit

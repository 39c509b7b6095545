import Mcsos.KmemHeap

/-!
What `kmem_free_checked` reports.  The code that it returns is that of a validation of the whole
heap, which comes after the block has been freed and gives up on long lists.
-/

namespace Mcsos.KmemFreeReport

open Mcsos.ByteMemory
open Mcsos.CallSystem
open Mcsos.KmemModel
open Mcsos.KmemHeaders
open Mcsos.KmemBlocks
open Mcsos.KmemSegments
open Mcsos.KmemOperations
open Mcsos.KmemValidate
open Mcsos.KmemInit
open Mcsos.KmemRuns
open Mcsos.KmemHeap

/-- One for a pointer to a free block, and zero for a null pointer or a block in use. -/
def countFree (m : ByteMem) (block : Nat) : Nat :=
  if block ≠ 0 ∧ blockFree m block ≠ 0 then 1 else 0

/-- The free neighbours of a block, as its links give them. -/
def freeNeighbours (m : ByteMem) (block : Nat) : Nat :=
  countFree m (blockPrev m block) + countFree m (blockNext m block)

theorem countFree_header {heapEnd prev block : Nat} {m : ByteMem} {b : Block}
    (hheader : header m block = blockHeader heapEnd prev block b) (hpos : block ≠ 0) :
    countFree m block = b.free.toNat := by
  have hfree : blockFree m block = b.free.toNat := by
    rw [blockFree_eq, hheader]
    rfl
  unfold countFree
  cases hb : b.free with
  | false => rw [hfree, hb, if_neg (fun h => h.2 rfl)]; rfl
  | true => rw [hfree, hb, if_pos ⟨hpos, Nat.one_ne_zero⟩]; rfl

section Neighbours

variable {s : KmemState} {pre post : List Block} {b : Block}

theorem countFree_prev (h : Layout s (pre ++ b :: post)) :
    countFree s.mem (blockPrev s.mem (s.gHeapBase + extent pre)) = freeBefore pre := by
  have hprev : blockPrev s.mem (s.gHeapBase + extent pre) = lastAddr 0 s.gHeapBase pre := by
    obtain ⟨-, -, -, hheader⟩ := h.at_middle
    rw [blockPrev_eq, hheader]
    rfl
  rw [hprev]
  rcases List.eq_nil_or_concat pre with rfl | ⟨pre, p, rfl⟩
  · rfl
  · rw [List.concat_eq_append] at *
    have h' : Layout s (pre ++ p :: (b :: post)) := by simpa using h
    obtain ⟨-, -, -, hheader⟩ := h'.at_middle
    have hbase := h.base_pos
    rw [lastAddr_concat, countFree_header hheader (by omega)]
    simp [freeBefore]

theorem countFree_next (h : Layout s (pre ++ b :: post)) :
    countFree s.mem (blockNext s.mem (s.gHeapBase + extent pre)) = freeAfter post := by
  obtain ⟨-, -, htiles, hheader⟩ := h.at_middle
  have hnext : blockNext s.mem (s.gHeapBase + extent pre) =
      nextPtr s.gHeapEnd (s.gHeapBase + extent pre + 48 + b.size) := by
    rw [blockNext_eq, hheader]
    rfl
  rw [hnext]
  rcases post with _ | ⟨c, post⟩
  · rw [extent_nil, Nat.add_zero] at htiles
    rw [nextPtr, if_pos htiles]
    rfl
  · rw [extent_cons] at htiles
    have hhere : nextPtr s.gHeapEnd (s.gHeapBase + extent pre + 48 + b.size) =
        s.gHeapBase + extent pre + 48 + b.size := if_neg (by omega)
    rw [hhere, countFree_header (segment_append.mp h.segment).2.2.1 (by omega)]
    simp [freeAfter]

theorem freeNeighbours_layout (h : Layout s (pre ++ b :: post)) :
    freeNeighbours s.mem (s.gHeapBase + extent pre) = freeBefore pre + freeAfter post := by
  rw [freeNeighbours, countFree_prev h, countFree_next h]

end Neighbours

theorem length_addresses (cur : Nat) (bs : List Block) : (addresses cur bs).length = bs.length := by
  induction bs generalizing cur with
  | nil => rfl
  | cons b bs ih => rw [addresses_cons, List.length_cons, List.length_cons, ih]

theorem kmemFreeChecked_reports {s : KmemState} {pre post : List Block} {b : Block}
    (h : Layout s (pre ++ b :: post)) (hmerged : NoAdjacentFree (pre ++ b :: post))
    (hused : b.free = false) :
    ∃ m', kmemFreeChecked s (s.gHeapBase + extent pre + 48) =
        some ({ s with mem := m' },
          if (pre ++ b :: post).length ≤
            kmemGuardLimit + freeNeighbours s.mem (s.gHeapBase + extent pre) then 0 else -3) ∧
      Layout { s with mem := m' } (freeBetween pre b post) := by
  obtain ⟨m', hfree, hlayout, -⟩ := kmemFreeChecked_layout h hused
  refine ⟨m', ?_, hlayout⟩
  have hlength := length_freeBetween hmerged
  rw [hfree, kmemValidate_layout hlayout, freeNeighbours_layout h]
  congr 2
  apply if_congr
  · omega
  · rfl
  · rfl

section Runs

variable {s : KmemState} {base bytes : Nat} {r : KmemRun} {trace : List (KmemCall × KmemResult)}

/-- After any run, to free a live pointer frees the block.  It is reported as a success when at
most `kmemGuardLimit` blocks are left, that is, all but the free neighbours of the block. -/
theorem run_free_reports_iff (hinit : (kmemInit s base bytes).2 = 0) (hbase : base < 2 ^ 64)
    (hbytes : bytes < 2 ^ 64) (hpart : PartOfSpace base bytes)
    (hrun : Run kmemSystem (startRun s base bytes) trace r) {p n : Nat} (hlive : (p, n) ∈ r.live) :
    ∃ blocks blocks' heap rc, HeapTiling r.heap blocks ∧
      kmemFreeChecked r.heap p = some (heap, rc) ∧
      HeapTiling heap blocks' ∧ (∀ b ∈ blocks', b + 48 = p → blockFree heap.mem b ≠ 0) ∧
      (rc = 0 ∨ rc = -3) ∧
      (rc = 0 ↔ blocks.length ≤ kmemGuardLimit + freeNeighbours r.heap.mem (p - 48)) := by
  obtain ⟨bs, hinv⟩ := heapInv_run_of_part hinit hbase hbytes hpart hrun
  obtain ⟨a, b, hmem, rfl, -⟩ := hinv.live.sound p n hlive
  obtain ⟨hplaced, hused⟩ := mem_used.mp hmem
  rw [← hinv.base_eq] at hplaced
  obtain ⟨pre, post, rfl, rfl⟩ := exists_split_of_placed hplaced
  obtain ⟨m', hfree, hlayout⟩ := kmemFreeChecked_reports hinv.layout hinv.merged hused
  refine ⟨_, _, _, _, tiling_of_layout hinv.layout, hfree, tiling_of_layout hlayout, ?_, ?_, ?_⟩
  · intro c hc heq
    obtain ⟨d, hd⟩ := mem_addresses.mp hc
    obtain ⟨q, hheader⟩ := hlayout.segment.header_of_placed hd
    have hfree : d.free = true := by
      by_contra hnot
      rw [Bool.not_eq_true] at hnot
      have hin := mem_used.mpr ⟨hd, hnot⟩
      exact (mem_used_freeBetween.mp hin).2 (by dsimp only; omega)
    rw [blockFree_eq, hheader]
    simp [blockHeader, hfree]
  · split
    · exact .inl rfl
    · exact .inr rfl
  · rw [length_addresses, Nat.add_sub_cancel]
    split
    case isTrue hle => exact ⟨fun _ => hle, fun _ => rfl⟩
    case isFalse hlt =>
      constructor
      · intro hzero
        cases hzero
      · exact fun hle => absurd hle hlt

theorem run_free_reports_iff_allocatedRun :
    ∃ blocks heap rc, HeapTiling allocatedRun.1.heap blocks ∧
      kmemFreeChecked allocatedRun.1.heap 4144 = some (heap, rc) ∧
      (rc = 0 ↔ blocks.length ≤
        kmemGuardLimit + freeNeighbours allocatedRun.1.heap.mem (4144 - 48)) := by
  have hlive : (4144, 24) ∈ allocatedRun.1.live := by decide
  obtain ⟨blocks, _, heap, rc, htiling, hfree, -, -, -, hiff⟩ :=
    run_free_reports_iff (by decide : (kmemInit unusedHeap 4096 256).2 = 0) (by decide) (by decide)
      (.inl (by decide)) run_allocatedRun hlive
  exact ⟨blocks, heap, rc, htiling, hfree, hiff⟩

end Runs

/-- Blocks of sixteen bytes in use, and a free block behind them. -/
def fullBlocks (count rest : Nat) : List Block := List.replicate count ⟨16, false⟩ ++ [⟨rest, true⟩]

theorem extent_replicate (count : Nat) :
    extent (List.replicate count ⟨16, false⟩) = 64 * count := by
  induction count with
  | zero => rfl
  | succ count ih =>
      rw [List.replicate_succ, extent_cons, ih]
      dsimp only
      omega

theorem fullBlocks_free {count rest : Nat} {pre post : List Block} {b : Block}
    (h : fullBlocks count rest = pre ++ b :: post) (hfree : b.free = true) :
    pre = List.replicate count ⟨16, false⟩ ∧ b = ⟨rest, true⟩ ∧ post = [] := by
  induction count generalizing pre with
  | zero =>
      rcases pre with _ | ⟨p, pre⟩
      · cases h
        exact ⟨rfl, rfl, rfl⟩
      · simp [fullBlocks] at h
  | succ count ih =>
      rcases pre with _ | ⟨p, pre⟩
      · cases h
        cases hfree
      · rw [fullBlocks, List.replicate_succ, List.cons_append, List.cons_append,
          List.cons.injEq] at h
        obtain ⟨rfl, hrest⟩ := h
        obtain ⟨rfl, hb, hpost⟩ := ih hrest
        exact ⟨rfl, hb, hpost⟩

theorem step_alloc_full {r : KmemRun} {count rest : Nat} (hrest : 32 < rest)
    (h : Layout r.heap (fullBlocks count (rest + 64))) :
    ∃ heap, r.step (.alloc 16) =
        some (⟨heap, (r.heap.gHeapBase + 64 * count + 48, 16) :: r.live⟩,
          .pointer (r.heap.gHeapBase + 64 * count + 48)) ∧
      Layout heap (fullBlocks (count + 1) rest) ∧ heap.gHeapBase = r.heap.gHeapBase := by
  have hwanted : kmemAlignUpSize 16 kmemAlign = 16 := by decide
  rcases kmemAlloc_layout h (by decide : 16 < 2 ^ 64) with
    ⟨-, hwhy⟩ | ⟨heap, bs', ptr, pre, post, b, hsome, hserves⟩
  · rw [hwanted] at hwhy
    rcases hwhy with hzero | hzero | hnofit
    · cases hzero
    · cases hzero
    · exact absurd ⟨rfl, by dsimp only; omega⟩ (hnofit ⟨rest + 64, true⟩ (by simp [fullBlocks]))
  · obtain ⟨hfound, hfits, -, -, rfl, rfl, hlayout, hbase, -, -⟩ := hserves
    obtain ⟨rfl, rfl, rfl⟩ := fullBlocks_free hfound hfits.1
    rw [extent_replicate] at hsome
    refine ⟨heap, ?_, ?_, hbase⟩
    · rw [KmemRun.step, hsome, Option.map_some, KmemRun.grant]
      dsimp only
      rw [if_neg (by omega)]
    · rw [hwanted] at hlayout
      have hcarve : carve ⟨rest + 64, true⟩ 16 = [⟨16, false⟩, ⟨rest, true⟩] := by
        rw [carve, if_neg (by dsimp only; omega)]
        congr 3
      rw [hcarve] at hlayout
      rw [fullBlocks, List.replicate_succ']
      simpa using hlayout

theorem exists_run_full {r : KmemRun} {count rest : Nat} (hrest : 32 < rest) (more : Nat)
    (h : Layout r.heap (fullBlocks count (rest + 64 * more))) :
    ∃ trace r', Run kmemSystem r trace r' ∧ Layout r'.heap (fullBlocks (count + more) rest) ∧
      r'.heap.gHeapBase = r.heap.gHeapBase ∧ ∀ pn ∈ r.live, pn ∈ r'.live := by
  induction more generalizing r count with
  | zero => exact ⟨[], r, .nil r, h, rfl, fun _ hpn => hpn⟩
  | succ more ih =>
      have hsize : rest + 64 * (more + 1) = rest + 64 * more + 64 := by omega
      rw [hsize] at h
      obtain ⟨heap, hstep, hlayout, hbase⟩ := step_alloc_full (by omega) h
      have hallowed : kmemSystem.allowed r (.alloc 16) := show 16 < 2 ^ 64 by decide
      obtain ⟨trace, r', hrun, hlayout', hbase', hkept⟩ := ih (r := ⟨heap, _⟩) hlayout
      refine ⟨_, r', .cons hallowed hstep hrun, ?_, hbase'.trans hbase, ?_⟩
      · rwa [Nat.add_right_comm, Nat.add_assoc] at hlayout'
      · exact fun pn hpn => hkept pn (List.mem_cons_of_mem _ hpn)

/-- On a heap of 64 MiB and a page, after 2 ^ 20 allocations of sixteen bytes, the first of
them is freed, and the call reports an error. -/
theorem run_free_fails :
    (kmemInit unusedHeap 4096 (2 ^ 26 + 4096)).2 = 0 ∧
      ∃ trace r heap, Run kmemSystem (startRun unusedHeap 4096 (2 ^ 26 + 4096)) trace r ∧
        (4144, 16) ∈ r.live ∧ kmemFreeChecked r.heap 4144 = some (heap, -3) := by
  have hinit : (kmemInit unusedHeap 4096 (2 ^ 26 + 4096)).2 = 0 := by
    rw [kmemInit_succeeds unusedHeap (by decide) (by decide)]
    unfold Rejected heapStart
    omega
  refine ⟨hinit, ?_⟩
  have hbase : (startRun unusedHeap 4096 (2 ^ 26 + 4096)).heap.gHeapBase = 4096 := by
    rw [startRun, kmemInit_eq (by decide) (by decide) hinit]
    rfl
  have hstart : Layout (startRun unusedHeap 4096 (2 ^ 26 + 4096)).heap
      (fullBlocks 0 (4048 + 64 * (2 ^ 20 - 1) + 64)) := by
    obtain ⟨size, hlayout⟩ :=
      kmemInit_layout (s := unusedHeap) (by decide) (by decide) (.inl (by decide)) hinit
    have htiles := hlayout.tiles
    rw [kmemInit_eq (by decide) (by decide) hinit] at htiles
    change 4096 + extent [⟨size, true⟩] = 2 ^ 26 + 8192 at htiles
    simp only [extent_cons, extent_nil] at htiles
    obtain rfl : size = 4048 + 64 * (2 ^ 20 - 1) + 64 := by omega
    exact hlayout
  obtain ⟨heap, hstep, hfirst, hbase'⟩ := step_alloc_full (by decide) hstart
  have hallowed : kmemSystem.allowed (startRun unusedHeap 4096 (2 ^ 26 + 4096)) (.alloc 16) :=
    show 16 < 2 ^ 64 by decide
  obtain ⟨trace, r, hrun, hlayout, hbase'', hkept⟩ :=
    exists_run_full (r := ⟨heap, _⟩) (by decide) (2 ^ 20 - 1) hfirst
  have hall : fullBlocks (0 + 1 + (2 ^ 20 - 1)) 4048 =
      [] ++ ⟨16, false⟩ :: fullBlocks (2 ^ 20 - 1) 4048 := by
    rw [fullBlocks, Nat.add_comm, List.replicate_succ]
    rfl
  rw [hall] at hlayout
  obtain ⟨m', hfree, hleft, -⟩ := kmemFreeChecked_layout hlayout rfl
  have hused : ∀ c ∈ (fullBlocks (2 ^ 20 - 1) 4048).head?, c.free = false := by
    rw [fullBlocks, List.head?_append, List.head?_replicate]
    simp
  rw [freeBetween_nil, mergeForward_of_used _ hused] at hleft
  have hlength : ¬(({ size := 16, free := true } : Block) ::
      fullBlocks (2 ^ 20 - 1) 4048).length ≤ kmemGuardLimit := by
    rw [List.length_cons, fullBlocks, List.length_append, List.length_replicate, kmemGuardLimit]
    decide
  rw [kmemValidate_layout hleft, if_neg hlength] at hfree
  have hptr : r.heap.gHeapBase + extent [] + 48 = 4144 := by
    rw [hbase'']
    dsimp only
    rw [hbase', hbase]
    rfl
  rw [hptr] at hfree
  refine ⟨_, r, _, .cons hallowed hstep hrun, ?_, hfree⟩
  apply hkept
  rw [hbase]
  exact List.mem_cons_self

end Mcsos.KmemFreeReport

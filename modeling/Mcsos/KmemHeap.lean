import Mcsos.KmemRuns

namespace Mcsos.KmemHeap

open Mcsos.ByteMemory
open Mcsos.CallSystem
open Mcsos.KmemModel
open Mcsos.KmemHeaders
open Mcsos.KmemBlocks
open Mcsos.KmemSegments
open Mcsos.KmemSplit
open Mcsos.KmemOperations
open Mcsos.KmemInit
open Mcsos.KmemRuns

/-- The list of header addresses that starts at `g_head` tiles the heap. -/
structure HeapTiling (s : KmemState) (blocks : List Nat) : Prop where
  head : s.gHead = s.gHeapBase
  first : blocks.head? = some s.gHeapBase
  first_prev : blockPrev s.mem s.gHeapBase = 0
  linked : List.IsChain (fun b c => blockNext s.mem b = c ∧ blockPrev s.mem c = b) blocks
  last_next : ∀ b ∈ blocks.getLast?, blockNext s.mem b = 0
  contiguous : List.IsChain (fun b c => b + 48 + blockSize s.mem b = c) blocks
  last_end : ∀ b ∈ blocks.getLast?, b + 48 + blockSize s.mem b = s.gHeapEnd
  size_aligned : ∀ b ∈ blocks, blockSize s.mem b % 16 = 0
  magic : ∀ b ∈ blocks, blockMagic s.mem b = kmemMagic

/-- The header addresses of a list of blocks. -/
def addresses (cur : Nat) (bs : List Block) : List Nat := (placed cur bs).map Prod.fst

@[simp] theorem addresses_nil (cur : Nat) : addresses cur [] = [] := rfl

@[simp] theorem addresses_cons (cur : Nat) (b : Block) (bs : List Block) :
    addresses cur (b :: bs) = cur :: addresses (cur + 48 + b.size) bs := rfl

theorem mem_addresses {cur a : Nat} {bs : List Block} :
    a ∈ addresses cur bs ↔ ∃ b, (a, b) ∈ placed cur bs := by
  simp [addresses]

theorem getLast?_addresses {cur a : Nat} {bs : List Block}
    (h : a ∈ (addresses cur bs).getLast?) :
    ∃ b, (a, b) ∈ placed cur bs ∧ a + 48 + b.size = cur + extent bs := by
  induction bs generalizing cur with
  | nil => simp at h
  | cons b bs ih =>
      rcases bs with _ | ⟨c, bs⟩
      · simp only [addresses_cons, addresses_nil, List.getLast?_singleton,
          Option.mem_def, Option.some.injEq] at h
        subst h
        exact ⟨b, by simp, by simp only [extent_cons, extent_nil]; omega⟩
      · rw [addresses_cons, addresses_cons, List.getLast?_cons_cons, ← addresses_cons] at h
        obtain ⟨d, hd, heq⟩ := ih h
        refine ⟨d, List.mem_cons_of_mem _ hd, ?_⟩
        rw [extent_cons]
        omega

section Tiling

variable {heapEnd prev cur : Nat} {m : ByteMem} {bs : List Block}

theorem isChain_linked (h : Segment heapEnd m prev cur bs) (hend : cur + extent bs ≤ heapEnd) :
    List.IsChain (fun a c => (blockNext m a = c ∧ blockPrev m c = a) ∧
      a + 48 + blockSize m a = c) (addresses cur bs) := by
  induction bs generalizing prev cur with
  | nil => exact List.IsChain.nil
  | cons b bs ih =>
      rcases bs with _ | ⟨c, bs⟩
      · exact List.IsChain.singleton _
      · obtain ⟨hb, hc, hrest⟩ := h
        rw [extent_cons, extent_cons] at hend
        have hnext : nextPtr heapEnd (cur + 48 + b.size) = cur + 48 + b.size := if_neg (by omega)
        refine List.isChain_cons_cons.mpr ⟨⟨⟨?_, ?_⟩, ?_⟩, ?_⟩
        · rw [blockNext_eq, hb, blockHeader, hnext]
        · rw [blockPrev_eq, hc, blockHeader]
        · rw [blockSize_eq, hb, blockHeader]
        · exact ih ⟨hc, hrest⟩ (by rw [extent_cons]; omega)

theorem isChain_notBothFree (h : Segment heapEnd m prev cur bs) (hmerged : NoAdjacentFree bs) :
    List.IsChain (fun a c => ¬(blockFree m a ≠ 0 ∧ blockFree m c ≠ 0)) (addresses cur bs) := by
  induction bs generalizing prev cur with
  | nil => exact List.IsChain.nil
  | cons b bs ih =>
      rcases bs with _ | ⟨c, bs⟩
      · exact List.IsChain.singleton _
      · obtain ⟨hb, hc, hrest⟩ := h
        obtain ⟨hnot, hmerged⟩ := List.isChain_cons_cons.mp hmerged
        refine List.isChain_cons_cons.mpr ⟨?_, ih ⟨hc, hrest⟩ hmerged⟩
        rw [blockFree_eq, blockFree_eq, hb, hc]
        simpa [blockHeader] using hnot

end Tiling

theorem tiling_of_layout {s : KmemState} {bs : List Block} (h : Layout s bs) :
    HeapTiling s (addresses s.gHeapBase bs) := by
  have hchain := isChain_linked h.segment (le_of_eq h.tiles)
  refine ⟨h.head, ?_, ?_, hchain.imp fun _ _ hab => hab.1, ?_, hchain.imp fun _ _ hab => hab.2,
    ?_, ?_, ?_⟩
  · obtain ⟨b, rest, rfl⟩ := List.exists_cons_of_ne_nil h.nonempty
    rfl
  · obtain ⟨b, rest, rfl⟩ := List.exists_cons_of_ne_nil h.nonempty
    rw [blockPrev_eq, h.segment.1]
    rfl
  · intro a ha
    obtain ⟨b, hb, heq⟩ := getLast?_addresses ha
    obtain ⟨p, hheader⟩ := h.segment.header_of_placed hb
    rw [blockNext_eq, hheader, blockHeader]
    exact if_pos (heq.trans h.tiles)
  · intro a ha
    obtain ⟨b, hb, heq⟩ := getLast?_addresses ha
    obtain ⟨p, hheader⟩ := h.segment.header_of_placed hb
    rw [blockSize_eq, hheader, blockHeader]
    exact heq.trans h.tiles
  · intro a ha
    obtain ⟨b, hb⟩ := mem_addresses.mp ha
    obtain ⟨p, hheader⟩ := h.segment.header_of_placed hb
    obtain ⟨pre, post, rfl, -⟩ := exists_split_of_placed hb
    rw [blockSize_eq, hheader, blockHeader]
    exact (h.sizes b (by simp)).1
  · intro a ha
    obtain ⟨b, hb⟩ := mem_addresses.mp ha
    obtain ⟨p, hheader⟩ := h.segment.header_of_placed hb
    rw [blockMagic_eq, hheader, blockHeader]

/-- One round of the loop of `kmem_get_stats`, on a block. -/
def countBlock (out : KmemStats) (b : Block) : KmemStats :=
  let out := { out with blockCount := (out.blockCount + 1) % 2 ^ 64 }
  if b.free then
    { out with
      freeCount := (out.freeCount + 1) % 2 ^ 64
      freeBytes := (out.freeBytes + b.size) % 2 ^ 64
      largestFree := if out.largestFree < b.size then b.size else out.largestFree }
  else { out with usedBytes := (out.usedBytes + b.size) % 2 ^ 64 }

theorem kmemStatsLoop_segment {heapEnd prev cur fuel : Nat} {m : ByteMem} {bs : List Block}
    (h : Segment heapEnd m prev cur bs) (hpos : 0 < cur) (hend : cur + extent bs = heapEnd)
    (hfuel : bs.length < fuel) (out : KmemStats) :
    kmemStatsLoop m fuel out (nextPtr heapEnd cur) = some (bs.foldl countBlock out) := by
  induction bs generalizing prev cur fuel out with
  | nil =>
      obtain ⟨fuel, rfl⟩ : ∃ k, fuel = k + 1 := ⟨fuel - 1, by omega⟩
      rw [extent_nil, Nat.add_zero] at hend
      rw [nextPtr, if_pos hend, kmemStatsLoop, if_pos rfl, List.foldl_nil]
  | cons b bs ih =>
      obtain ⟨fuel, rfl⟩ : ∃ k, fuel = k + 1 := ⟨fuel - 1, by omega⟩
      rw [extent_cons] at hend
      rw [List.length_cons] at hfuel
      have hcur : nextPtr heapEnd cur = cur := if_neg (by omega)
      have hrest := ih h.2 (by omega) (by omega) (by omega : bs.length < fuel) (countBlock out b)
      rw [hcur, kmemStatsLoop, if_neg (by omega), List.foldl_cons, ← hrest]
      simp only [blockFree_eq, blockSize_eq, blockNext_eq, h.1, blockHeader, countBlock]
      cases b.free <;> rfl

theorem kmemGetStats_layout {s : KmemState} {bs : List Block} (h : Layout s bs) :
    kmemGetStats s = some (bs.foldl countBlock ⟨s.gHeapEnd - s.gHeapBase, 0, 0, 0, 0, 0⟩) := by
  have htiles := h.tiles
  have hpos := extent_pos h.nonempty
  have hend := h.end_bound
  have hhead : s.gHead = nextPtr s.gHeapEnd s.gHeapBase := by
    rw [h.head]
    exact (if_neg (by omega)).symm
  have htotal : (s.gHeapEnd + 2 ^ 64 - s.gHeapBase) % 2 ^ 64 = s.gHeapEnd - s.gHeapBase := by
    omega
  rw [kmemGetStats, if_neg (by simp [h.initialized]), htotal, hhead]
  exact kmemStatsLoop_segment h.segment h.base_pos h.tiles (Layout.length_lt_fuel h) _

/-- The allocator before its first call, over zeroed memory. -/
def unusedHeap : KmemState := ⟨fun _ => 0, 0, 0, 0, false⟩

/-- A heap of 256 bytes at address 4096, after `kmem_alloc(24)`. -/
def allocatedRun : KmemRun × KmemResult :=
  ((startRun unusedHeap 4096 256).step (.alloc 24)).getD (startRun unusedHeap 4096 256, .done)

theorem step_of_getD {r : KmemRun} {call : KmemCall} {result : KmemResult}
    (hsome : (r.step call).isSome = true)
    (hresult : ((r.step call).getD (r, .done)).2 = result) :
    r.step call = some (((r.step call).getD (r, .done)).1, result) := by
  obtain ⟨next, hnext⟩ := Option.isSome_iff_exists.mp hsome
  rw [← hresult, hnext]
  rfl

theorem step_allocatedRun :
    (startRun unusedHeap 4096 256).step (.alloc 24) = some (allocatedRun.1, .pointer 4144) :=
  step_of_getD (by decide) (by decide)

theorem run_allocatedRun :
    Run kmemSystem (startRun unusedHeap 4096 256) [(.alloc 24, .pointer 4144)]
      allocatedRun.1 :=
  .cons (by decide : 24 < 2 ^ 64) step_allocatedRun (.nil _)

section Runs

variable {s : KmemState} {base bytes : Nat} {r : KmemRun}
  {trace : List (KmemCall × KmemResult)}

/-- After any run the header list tiles the heap exactly, and the next call
returns whatever it is. -/
theorem run_heapTiling (hinit : (kmemInit s base bytes).2 = 0)
    (hend : base + bytes ≤ 2 ^ 64 - 4096)
    (hrun : Run kmemSystem (startRun s base bytes) trace r) :
    (∃ blocks, HeapTiling r.heap blocks) ∧
      ∀ call, r.Allowed call → ∃ r' result, r.step call = some (r', result) := by
  obtain ⟨bs, hinv⟩ := heapInv_run hinit hend hrun
  refine ⟨⟨_, tiling_of_layout hinv.layout⟩, ?_⟩
  intro call hallowed
  obtain ⟨r', result, -, hstep, -⟩ := heapInv_step hinv hallowed
  exact ⟨r', result, hstep⟩

theorem run_heapTiling_allocatedRun :
    (kmemInit unusedHeap 4096 256).2 = 0 ∧ ∃ blocks, HeapTiling allocatedRun.1.heap blocks :=
  ⟨by decide, (run_heapTiling (by decide) (by decide) run_allocatedRun).1⟩

theorem live_placed {heapBase heapEnd : Nat} {bs : List Block}
    (hinv : HeapInv heapBase heapEnd r bs) {p n : Nat} (hlive : (p, n) ∈ r.live) :
    p % 16 = 0 ∧ r.heap.gHeapBase ≤ p ∧ p + n ≤ r.heap.gHeapEnd ∧
      ∀ b ∈ addresses r.heap.gHeapBase bs, p + n ≤ b ∨ b + 48 ≤ p := by
  obtain ⟨a, b, hused, rfl, hle⟩ := hinv.live.sound p n hlive
  rw [← hinv.base_eq] at hused
  have hplaced := (mem_used.mp hused).1
  have hbounds := placed_bounds hplaced
  have htiles := hinv.layout.tiles
  obtain ⟨pre, post, rfl, rfl⟩ := exists_split_of_placed hplaced
  obtain ⟨hblock, -, -, -⟩ := hinv.layout.at_middle
  refine ⟨by omega, by omega, by omega, ?_⟩
  intro c hc
  obtain ⟨d, hd⟩ := mem_addresses.mp hc
  rcases placed_disjoint hplaced hd with ⟨heq, rfl⟩ | hapart | hapart <;> omega

theorem pairwise_of_nodup {live : List (Nat × Nat)} (hnodup : (live.map Prod.fst).Nodup)
    (hapart : ∀ p n q k, (p, n) ∈ live → (q, k) ∈ live → p ≠ q → p + n ≤ q ∨ q + k ≤ p) :
    live.Pairwise fun x y => x.1 + x.2 ≤ y.1 ∨ y.1 + y.2 ≤ x.1 := by
  have hne : live.Pairwise fun x y => x.1 ≠ y.1 := List.pairwise_map.mp hnodup
  refine hne.imp_of_mem fun {x y} hx hy hxy => ?_
  exact hapart x.1 x.2 y.1 y.2 hx hy hxy

/-- Live allocations are aligned, inside the heap, away from every header and
from each other; a call that grants one adds it to the live ones; no allocator
call changes a byte of an allocation it does not free; and `kmem_calloc` hands
out zeroed bytes. -/
theorem run_isolation (hinit : (kmemInit s base bytes).2 = 0)
    (hend : base + bytes ≤ 2 ^ 64 - 4096)
    (hrun : Run kmemSystem (startRun s base bytes) trace r) :
    (∃ blocks, HeapTiling r.heap blocks ∧ ∀ p n, (p, n) ∈ r.live →
        p % 16 = 0 ∧ r.heap.gHeapBase ≤ p ∧ p + n ≤ r.heap.gHeapEnd ∧
          ∀ b ∈ blocks, p + n ≤ b ∨ b + 48 ≤ p) ∧
      (r.live.Pairwise fun x y => x.1 + x.2 ≤ y.1 ∨ y.1 + y.2 ≤ x.1) ∧
      ∀ call r' result, r.Allowed call → r.step call = some (r', result) →
        (∀ p n, result = .pointer p → p ≠ 0 → call.request = some n → (p, n) ∈ r'.live) ∧
        ((∀ addr value, call ≠ .clientWrite addr value) →
          ∀ p n, (p, n) ∈ r.live → call ≠ .free p →
            ∀ a, p ≤ a → a < p + n → r'.heap.mem a = r.heap.mem a) ∧
        ∀ count size p, call = .calloc count size → result = .pointer p → p ≠ 0 →
          ∀ a, p ≤ a → a < p + count * size → r'.heap.mem a = 0 := by
  obtain ⟨bs, hinv⟩ := heapInv_run hinit hend hrun
  refine ⟨⟨_, tiling_of_layout hinv.layout, fun p n hlive => live_placed hinv hlive⟩,
    pairwise_of_nodup hinv.live.nodup fun p n q k hp hq hne => hinv.live_disjoint hp hq hne, ?_⟩
  intro call r' result hallowed hstep
  obtain ⟨r'', result', bs', hstep', -, hkeeps⟩ := heapInv_step hinv hallowed
  cases hstep.symm.trans hstep'
  refine ⟨?_, hkeeps, ?_⟩
  · rintro p n rfl hne hrequest
    cases call with
    | alloc size =>
        obtain ⟨⟨heap, q⟩, -, heq⟩ := Option.map_eq_some_iff.mp hstep
        cases hrequest
        cases heq
        simp [hne]
    | calloc count size =>
        obtain ⟨⟨heap, q⟩, -, heq⟩ := Option.map_eq_some_iff.mp hstep
        cases hrequest
        cases heq
        simp [hne]
    | free ptr => simp [KmemCall.request] at hrequest
    | clientWrite addr value => simp [KmemCall.request] at hrequest
  · rintro count size p rfl rfl hne
    obtain ⟨heap, q, -, hcall, -, -, hzero, -⟩ := heapInv_calloc hinv count size
    rw [KmemRun.step, hcall, Option.map_some, KmemRun.grant] at hstep
    cases hstep
    exact hzero hne

theorem run_isolation_allocatedRun :
    allocatedRun.1.live = [(4144, 24)] ∧
      ∃ blocks, HeapTiling allocatedRun.1.heap blocks ∧
        ∀ p n, (p, n) ∈ allocatedRun.1.live →
          p % 16 = 0 ∧ allocatedRun.1.heap.gHeapBase ≤ p ∧
            p + n ≤ allocatedRun.1.heap.gHeapEnd ∧ ∀ b ∈ blocks, p + n ≤ b ∨ b + 48 ≤ p :=
  ⟨by decide, (run_isolation (by decide) (by decide) run_allocatedRun).1⟩

/-- After any run no two neighbouring blocks are both free, and once nothing is
live the heap is the single free block that `kmem_init` made. -/
theorem run_coalesced (hinit : (kmemInit s base bytes).2 = 0)
    (hend : base + bytes ≤ 2 ^ 64 - 4096)
    (hrun : Run kmemSystem (startRun s base bytes) trace r) :
    ∃ blocks, HeapTiling r.heap blocks ∧
      List.IsChain (fun a c => ¬(blockFree r.heap.mem a ≠ 0 ∧ blockFree r.heap.mem c ≠ 0))
        blocks ∧
      (r.live = [] →
        blocks = [(kmemInit s base bytes).1.gHeapBase] ∧
          header r.heap.mem (kmemInit s base bytes).1.gHeapBase =
            header (kmemInit s base bytes).1.mem (kmemInit s base bytes).1.gHeapBase ∧
          blockFree r.heap.mem (kmemInit s base bytes).1.gHeapBase ≠ 0 ∧
          ∃ stats, kmemGetStats r.heap = some stats ∧
            kmemGetStats (kmemInit s base bytes).1 = some stats ∧
            stats.blockCount = 1 ∧ stats.freeCount = 1) := by
  obtain ⟨bs, hinv⟩ := heapInv_run hinit hend hrun
  refine ⟨_, tiling_of_layout hinv.layout,
    isChain_notBothFree hinv.layout.segment hinv.merged, ?_⟩
  intro hlive
  have hnone : used (startRun s base bytes).heap.gHeapBase bs = [] := by
    rw [List.eq_nil_iff_forall_not_mem]
    rintro ⟨a, b⟩ hmem
    obtain ⟨n, hn⟩ := hinv.live.complete a b hmem
    simp [hlive] at hn
  obtain ⟨size, rfl⟩ := eq_singleton_of_used_eq_nil hinv.layout.nonempty hinv.merged hnone
  obtain ⟨size₀, hlayout₀⟩ := kmemInit_layout (by omega) (by omega) (.inr (by omega)) hinit
  have hbase : r.heap.gHeapBase = (kmemInit s base bytes).1.gHeapBase := hinv.base_eq
  have hheapEnd : r.heap.gHeapEnd = (kmemInit s base bytes).1.gHeapEnd := hinv.end_eq
  have hsize : size = size₀ := by
    have htiles := hinv.layout.tiles
    have htiles₀ := hlayout₀.tiles
    simp only [extent_cons, extent_nil] at htiles htiles₀
    omega
  subst hsize
  have hheader := hinv.layout.segment.1
  rw [hbase, hheapEnd] at hheader
  refine ⟨by rw [hbase]; rfl, hheader.trans hlayout₀.segment.1.symm, ?_, ?_⟩
  · rw [blockFree_eq, hheader]
    simp [blockHeader]
  · refine ⟨_, kmemGetStats_layout hinv.layout, ?_, rfl, rfl⟩
    rw [kmemGetStats_layout hlayout₀, hbase, hheapEnd]

/-- The same heap after the pointer is freed again. -/
def freedRun : KmemRun × KmemResult :=
  (allocatedRun.1.step (.free 4144)).getD (allocatedRun.1, .done)

theorem step_freedRun : allocatedRun.1.step (.free 4144) = some (freedRun.1, .code 0) :=
  step_of_getD (by decide) (by decide)

theorem run_freedRun :
    Run kmemSystem (startRun unusedHeap 4096 256)
      ([(.alloc 24, .pointer 4144)] ++ [(.free 4144, .code 0)]) freedRun.1 := by
  have hlive : (4144, 24) ∈ allocatedRun.1.live := by decide
  exact run_allocatedRun.append (.cons (.inr ⟨24, hlive⟩) step_freedRun (.nil _))

theorem run_coalesced_freedRun :
    freedRun.1.live = [] ∧ ∃ stats, kmemGetStats freedRun.1.heap = some stats ∧
      stats.blockCount = 1 ∧ stats.freeCount = 1 := by
  have hlive : freedRun.1.live = [] := by decide
  obtain ⟨blocks, -, -, hempty⟩ :=
    run_coalesced (by decide : (kmemInit unusedHeap 4096 256).2 = 0) (by decide) run_freedRun
  obtain ⟨-, -, -, stats, hstats, -, hblocks, hfree⟩ := hempty hlive
  exact ⟨hlive, stats, hstats, hblocks, hfree⟩

end Runs

end Mcsos.KmemHeap

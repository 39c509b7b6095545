import Mcsos.KmemInit
import Mcsos.KmemOperations
import Mcsos.PmmLowestFirst
import Mcsos.PmmReserved
import Mcsos.SerialModel
import Mcsos.TrapModel

/-!
The way of `kernel/kernel.c` from the memory map of the boot loader to a kernel that waits for
interrupts, with its frame allocator and its heap.
-/

namespace Mcsos.KernelBoot

open Mcsos.CallSystem
open Mcsos.PmmModel
open Mcsos.PmmBitmap
open Mcsos.PmmOwnership
open Mcsos.PmmCounters
open Mcsos.PmmLowestFirst
open Mcsos.PmmReserved
open Mcsos.KmemModel
open Mcsos.KmemHeaders
open Mcsos.KmemBlocks
open Mcsos.KmemSegments
open Mcsos.KmemValidate
open Mcsos.KmemInit
open Mcsos.KmemOperations
open Mcsos.SerialModel
open Mcsos.TrapModel

/-- `struct limine_memmap_entry`. -/
structure LimineMemmapEntry where
  base : UInt64
  length : UInt64
  type : UInt64
deriving DecidableEq, Repr

def limineMemmapUsable : UInt64 := 0

def limineMemmapReserved : UInt64 := 1

def limineMemmapAcpiReclaimable : UInt64 := 2

def limineMemmapAcpiNvs : UInt64 := 3

def limineMemmapBadMemory : UInt64 := 4

def limineMemmapBootloaderReclaimable : UInt64 := 5

def limineMemmapKernelAndModules : UInt64 := 6

def limineMemmapFramebuffer : UInt64 := 7

def bootMemReserved : UInt32 := 2

def bootMemBootloaderReclaimable : UInt32 := 3

def bootMemKernelAndModules : UInt32 := 4

def bootMemFramebuffer : UInt32 := 5

def bootMemAcpiReclaimable : UInt32 := 6

def bootMemAcpiNvs : UInt32 := 7

def bootMemBadMemory : UInt32 := 8

/-- The `switch` over the type of an entry. -/
def bootMemType (type : UInt64) : UInt32 :=
  if type = limineMemmapUsable then bootMemUsable
  else if type = limineMemmapReserved then bootMemReserved
  else if type = limineMemmapBootloaderReclaimable then bootMemBootloaderReclaimable
  else if type = limineMemmapKernelAndModules then bootMemKernelAndModules
  else if type = limineMemmapFramebuffer then bootMemFramebuffer
  else if type = limineMemmapAcpiReclaimable then bootMemAcpiReclaimable
  else if type = limineMemmapAcpiNvs then bootMemAcpiNvs
  else if type = limineMemmapBadMemory then bootMemBadMemory
  else bootMemReserved

def LimineMemmapEntry.region (e : LimineMemmapEntry) : BootMemRegion :=
  ⟨e.base, e.length, bootMemType e.type⟩

/-- The loop over the entries of the map, with the regions written so far. -/
def copyEntries : List LimineMemmapEntry → List BootMemRegion → List BootMemRegion
  | [], regions => regions
  | e :: entries, regions =>
      if regions.length < 128 then copyEntries entries (regions ++ [e.region]) else regions

def pmmMaxPhysBytes : Nat := 64 * 1024 * 1024 * 1024

def pmmBitmapBytes : Nat := pmmMaxPhysBytes / pmmPageSize / 8

def m8BootHeapSize : Nat := 64 * 1024

/-- What was sent to the serial port, the table of gates, the frame allocator, its bitmap
before the start, the heap, and whether interrupts are on. -/
structure Kernel where
  serial : List Char
  idt : Idt × Idtr
  kernelPmm : PmmState
  kernelPmmBitmap : Bitmap
  heap : KmemState
  interrupts : Bool

def Kernel.write (k : Kernel) (text : String) : Kernel :=
  { k with serial := k.serial ++ serialWriteString text.toList }

/-- The end of `kernel_memory_init`. -/
def sampleFrame (k : Kernel) : Kernel :=
  let (pmm, f) := pmmAllocFrame k.kernelPmm
  let k := { k with kernelPmm := pmm }
  if f ≠ pmmInvalidFrame then
    let k := k.write "[m6] sample frame alloc OK\n"
    let k := { k with kernelPmm := (pmmFreeFrame k.kernelPmm f).1 }
    k.write "[m6] sample frame free OK\n"
  else k

/-- `kernel_memory_init`; a kernel that stays in the loop behind a message is an error. -/
def kernelMemoryInit (k : Kernel) (response : Option (List LimineMemmapEntry)) :
    Except Kernel Kernel :=
  match response with
  | none => .error (k.write "[m6] ERROR: no memmap response\n")
  | some entries =>
      let (pmm, ok) := pmmInitFromMap k.kernelPmm (some (copyEntries entries []))
        (some k.kernelPmmBitmap) pmmBitmapBytes pmmMaxPhysBytes
      let k := { k with kernelPmm := pmm }
      if ok = false then .error (k.write "[m6] ERROR: pmm_init_from_map failed\n")
      else .ok (sampleFrame (k.write "[m6] pmm initialized\n"))

/-- The part of `kernel_main` for the heap at `m8_boot_heap`; `none` if it does not come to
an end. -/
def heapBootstrap (k : Kernel) (m8BootHeap : Nat) : Option (Except Kernel Kernel) :=
  let (heap, rc) := kmemInit k.heap m8BootHeap m8BootHeapSize
  let k := { k with heap := heap }
  if rc ≠ 0 then some (.error (k.write "[M8 FAIL] kmem_init failed\n"))
  else
    let k := k.write "[M8] heap initialized\n"
    (kmemAlloc k.heap 128).bind fun (heap, probe) =>
      let k := { k with heap := heap }
      if probe = 0 then some (.error (k.write "[M8 FAIL] kmem_alloc probe failed\n"))
      else
        (kmemFreeChecked k.heap probe).map fun (heap, rc) =>
          let k := { k with heap := heap }
          if rc ≠ 0 then .error (k.write "[M8 FAIL] kmem_free_checked failed\n")
          else .ok (k.write "[M8 SUCCESS] kernel heap alloc/free probe OK\n")

/-- `kernel_main`, with the addresses of the stubs, of the descriptor table and of the heap. -/
def kernelMain (stubs : UInt8 → UInt64) (idtTable : UInt64) (m8BootHeap : Nat) (k : Kernel)
    (response : Option (List LimineMemmapEntry)) : Option (Except Kernel Kernel) :=
  let k := { k with idt := idtInitEarly stubs idtTable }
  match kernelMemoryInit k response with
  | .error k => some (.error k)
  | .ok k =>
      (heapBootstrap k m8BootHeap).map fun result =>
        result.map fun k => { k with interrupts := true }

/-- The characters of some messages. -/
def messages (texts : List String) : List Char :=
  texts.flatMap fun text => serialWriteString text.toList

theorem copyEntries_eq (entries : List LimineMemmapEntry) (regions : List BootMemRegion) :
    copyEntries entries regions =
      regions ++ (entries.take (128 - regions.length)).map LimineMemmapEntry.region := by
  induction entries generalizing regions with
  | nil => rw [copyEntries, List.take_nil, List.map_nil, List.append_nil]
  | cons e entries ih =>
      rw [copyEntries]
      split
      case isTrue hroom =>
        have htake : 128 - regions.length = 128 - (regions ++ [e.region]).length + 1 := by
          rw [List.length_append, List.length_singleton]
          omega
        rw [ih, htake, List.take_succ_cons, List.map_cons, List.append_assoc, List.singleton_append]
      case isFalse hfull =>
        rw [Nat.sub_eq_zero_of_le (by omega), List.take_zero, List.map_nil, List.append_nil]

/-- The bytes of an entry, in exact integers. -/
def LimineMemmapEntry.bytes (e : LimineMemmapEntry) : Set Nat :=
  Set.Ico e.base.toNat (e.base.toNat + e.length.toNat)

/-- The frames that a map offers: not the first one, with all bytes in one usable entry and
none in an entry of another type. -/
def BootFree (entries : List LimineMemmapEntry) (g : Nat) : Prop :=
  0 < g ∧ (∃ e ∈ entries, e.type = limineMemmapUsable ∧ frameBytes g ⊆ e.bytes) ∧
    ∀ e ∈ entries, e.type ≠ limineMemmapUsable → Disjoint (frameBytes g) e.bytes

/-- No entry reaches into the last page of the address space. -/
def BelowTop (entries : List LimineMemmapEntry) : Prop :=
  ∀ e ∈ entries, e.base.toNat + e.length.toNat ≤ 2 ^ 64 - 4096

theorem bootMemType_usable_iff (type : UInt64) :
    bootMemType type = bootMemUsable ↔ type = limineMemmapUsable := by
  rw [bootMemType]
  split
  case isTrue husable => exact iff_of_true rfl husable
  case isFalse husable =>
    refine iff_of_false ?_ husable
    split_ifs <;> decide

theorem inUsableRegion_iff (entries : List LimineMemmapEntry) (g : Nat) :
    0 < g ∧ InUsableRegion (entries.map LimineMemmapEntry.region) g ↔ BootFree entries g := by
  have husable : ∀ e : LimineMemmapEntry,
      e.region.type = bootMemUsable ↔ e.type = limineMemmapUsable :=
    fun e => bootMemType_usable_iff e.type
  have hbytes : ∀ e : LimineMemmapEntry, regionBytes e.region = e.bytes := fun _ => rfl
  simp only [InUsableRegion, BootFree, List.mem_map, exists_exists_and_eq_and,
    forall_exists_index, and_imp, forall_apply_eq_imp_iff₂, ne_eq, husable, hbytes]

/-- A frame allocator of 64 GiB of which nothing is handed out and these frames are free. -/
structure Offers (pmm : PmmState) (free : Nat → Prop) : Prop where
  inv : PmmInv (2 ^ 24) ⟨pmm, []⟩
  mem_free : ∀ g, g ∈ (ownership ⟨pmm, []⟩).free ↔ free g

section Frames

variable {pmm : PmmState} {entries : List LimineMemmapEntry}

/-- The initialisation with the first entries of the map. -/
def initFrames (pmm : PmmState) (bitmap : Bitmap) (entries : List LimineMemmapEntry) :
    PmmState × Bool :=
  pmmInitFromMap pmm (some (copyEntries entries [])) (some bitmap) pmmBitmapBytes pmmMaxPhysBytes

theorem initFrames_succeeds (pmm : PmmState) (bitmap : Bitmap) (hmap : entries ≠ []) :
    (initFrames pmm bitmap entries).2 = true := by
  refine pmmInitFromMap_succeeds pmm bitmap ?_ (by decide) (by decide) (by decide) (by decide)
  rw [copyEntries_eq]
  simpa using hmap

/-- The frames that the initialisation makes free. -/
def Freed (pmm : PmmState) (g : Nat) : Prop :=
  g < 2 ^ 24 ∧ pmmIsFrameFree pmm (g * pmmPageSize) = true

theorem Offers.freed {free : Nat → Prop} (h : Offers pmm free) (g : Nat) :
    Freed pmm g ↔ free g := by
  have hlimit : pmm.maxPhys = 4096 * pmm.frameCount :=
    h.inv.maxPhys_eq.trans (congrArg (4096 * ·) h.inv.frameCount_eq.symm)
  rw [← h.mem_free g]
  change g < 2 ^ 24 ∧ _ ↔ g < pmm.frameCount ∧ _
  rw [h.inv.frameCount_eq]
  exact and_congr_right fun hg =>
    pmmIsFrameFree_iff h.inv.initialized hlimit (hg.trans_eq h.inv.frameCount_eq.symm)

theorem offers_freed (hinv : PmmInv (2 ^ 24) ⟨pmm, []⟩) : Offers pmm (Freed pmm) := by
  have hoffers : Offers pmm fun g => g ∈ (ownership ⟨pmm, []⟩).free := ⟨hinv, fun _ => Iff.rfl⟩
  exact ⟨hinv, fun g => (hoffers.freed g).symm⟩

theorem freed_initFrames (pmm : PmmState) (bitmap : Bitmap) (hmap : entries ≠ [])
    (htop : BelowTop (entries.take 128)) {g : Nat} (hg : g < 2 ^ 24) :
    Freed (initFrames pmm bitmap entries).1 g ↔ BootFree (entries.take 128) g := by
  have hends : ∀ region ∈ (entries.take 128).map LimineMemmapEntry.region,
      regionEnd region ≤ 2 ^ 64 - 4096 := by
    intro region hregion
    obtain ⟨e, he, rfl⟩ := List.mem_map.mp hregion
    exact htop e he
  rw [Freed, and_iff_right hg, ← inUsableRegion_iff, ← released_iff hends]
  refine (pmmInitFromMap_free_iff (initFrames_succeeds pmm bitmap hmap) (by decide) hg).trans ?_
  rw [copyEntries_eq]
  rfl

theorem offers_probed {free : Nat → Prop} (h : Offers pmm free) (hlow : HintLow pmm)
    (hcounted : Counted pmm) :
    ((∀ g, ¬free g) ∧ pmmAllocFrame pmm = (pmm, pmmInvalidFrame)) ∨
      ∃ f pmm', free f ∧ pmmAllocFrame pmm = (pmm', f * pmmPageSize) ∧
        Offers (pmmFreeFrame pmm' (f * pmmPageSize)).1 free := by
  have hclear : ∀ g, g ∈ clearFrames pmm ↔ free g := fun g => mem_clearFrames.trans (h.mem_free g)
  rcases pmmAllocFrame_lowest hlow hcounted h.inv.initialized with
    ⟨hempty, hnone⟩ | ⟨f, ⟨hf, -⟩, htake⟩
  · refine .inl ⟨fun g hg => ?_, hnone⟩
    exact absurd ((hclear g).mpr hg) (hempty ▸ Finset.notMem_empty g)
  · right
    have hfree := mem_clearFrames.mp hf
    have hlt : f < 2 ^ 24 := hfree.1.trans_eq h.inv.frameCount_eq
    have htaken := h.inv.takeFrame hlt hfree.2
    have howner := ownership_takeFrame (r := ⟨pmm, []⟩) hfree.1 hfree.2
    have hpage : f * pmmPageSize / 4096 = f := Nat.mul_div_cancel f (by decide)
    have hcount := htaken.frameCount_eq
    obtain ⟨hzero, -⟩ := htaken.out_used _ List.mem_cons_self
    refine ⟨f, (takeFrame pmm f).1, (hclear f).mp hf, ?_, ?_⟩
    · rw [htake]
      exact Prod.ext rfl (takeFrame_address h.inv hlt)
    · have hback := htaken.releaseFrame (f := f) (by rintro rfl; simp at hzero) hlt
      have howner' := ownership_releaseFrame (hlt.trans_eq hcount.symm) List.mem_cons_self
      rw [pmmFreeFrame_outstanding htaken List.mem_cons_self, hpage]
      have hnone : List.filter (· != f * pmmPageSize) [f * pmmPageSize] = [] := by simp
      rw [hnone] at hback howner'
      refine ⟨hback, fun g => ?_⟩
      rw [howner', howner, ← h.mem_free g]
      have hmem : f ∈ (ownership ⟨pmm, []⟩).free := hfree
      change g ∈ insert f ((ownership ⟨pmm, []⟩).free \ {f}) ↔ _
      rw [Set.insert_sdiff_singleton, Set.insert_eq_of_mem hmem]

end Frames

def heapTexts : List String :=
  ["[M8] heap initialized\n", "[M8 SUCCESS] kernel heap alloc/free probe OK\n"]

section Heap

variable {m8BootHeap : Nat}

theorem kmemInit_bootHeap (s : KmemState) (hnull : m8BootHeap ≠ 0)
    (haligned : m8BootHeap % 4096 = 0) (hend : m8BootHeap + m8BootHeapSize < 2 ^ 64) :
    ∃ heap, kmemInit s m8BootHeap m8BootHeapSize = (heap, 0) ∧ heap.gHeapBase = m8BootHeap ∧
      Layout heap [⟨m8BootHeapSize - 48, true⟩] := by
  have hsize : m8BootHeapSize = 65536 := rfl
  have hstart : heapStart m8BootHeap = m8BootHeap := by
    unfold heapStart
    omega
  have hstop : heapStop m8BootHeap m8BootHeapSize = m8BootHeap + m8BootHeapSize := by
    unfold heapStop
    omega
  have haccepted : ¬Rejected m8BootHeap m8BootHeapSize := by
    rw [Rejected, hstart]
    omega
  have hinit := (kmemInit_succeeds s (by omega) (by omega)).mpr ⟨haccepted, hend⟩
  have heq := kmemInit_eq (by omega) (by omega) hinit
  obtain ⟨size, hlayout⟩ := kmemInit_layout (by omega) (by omega) (.inl (by omega)) hinit
  have htiles := hlayout.tiles
  rw [hstart, hstop] at heq
  rw [heq] at htiles
  change m8BootHeap + (48 + size + 0) = (m8BootHeap + m8BootHeapSize) % 2 ^ 64 at htiles
  rw [Nat.mod_eq_of_lt hend] at htiles
  obtain rfl : size = m8BootHeapSize - 48 := by omega
  refine ⟨(kmemInit s m8BootHeap m8BootHeapSize).1, Prod.ext rfl hinit, ?_, hlayout⟩
  rw [heq]
  rfl

theorem probed_layout {s : KmemState} {size n : Nat} (h : Layout s [⟨size, true⟩]) (hpos : n ≠ 0)
    (hn : n ≤ size) :
    ∃ heap ptr heap', kmemAlloc s n = some (heap, ptr) ∧ ptr ≠ 0 ∧
      kmemFreeChecked heap ptr = some (heap', 0) ∧ heap'.gHeapBase = s.gHeapBase ∧
      Layout heap' [⟨size, true⟩] := by
  have hbound := h.end_bound
  have htiles : s.gHeapBase + (48 + size + 0) = s.gHeapEnd := h.tiles
  obtain ⟨hsize, -⟩ := h.sizes _ List.mem_cons_self
  have hround : kmemAlignUpSize n kmemAlign = (n + 15) / 16 * 16 := by
    rw [kmemAlignUpSize_align]
    omega
  have hlt : n < 2 ^ 64 := by omega
  rcases kmemAlloc_layout h hlt with
    ⟨-, hzero | hwrap | hfull⟩ | ⟨heap, bs, ptr, pre, post, b, halloc, hserves⟩
  · exact absurd hzero hpos
  · omega
  · refine absurd ⟨rfl, ?_⟩ (hfull _ List.mem_cons_self)
    rw [hround]
    dsimp only at hsize ⊢
    omega
  · obtain ⟨hfound, hfits, -, -, rfl, rfl, hlayout, hbase, -⟩ := hserves
    have hmerged : NoAdjacentFree (pre ++ b :: post) := hfound ▸ List.isChain_singleton _
    obtain ⟨taken, rest, hcarve, hback⟩ :=
      freeBetween_carve (kmemAlignUpSize n kmemAlign) hfits.1 hmerged
    have hcarved : Layout heap (pre ++ ⟨taken, false⟩ :: (rest ++ post)) := by
      rw [hcarve] at hlayout
      simpa using hlayout
    obtain ⟨m, hfree, hlayout', -⟩ := kmemFreeChecked_layout hcarved rfl
    rw [hback, ← hfound] at hlayout'
    rw [kmemValidate_layout hlayout', List.length_singleton, if_pos (by decide)] at hfree
    rw [← hbase] at halloc
    exact ⟨heap, _, _, halloc, by omega, hfree, hbase, hlayout'⟩

theorem heapBootstrap_boots (k : Kernel) (hnull : m8BootHeap ≠ 0)
    (haligned : m8BootHeap % 4096 = 0) (hend : m8BootHeap + m8BootHeapSize < 2 ^ 64) :
    ∃ heap, heap.gHeapBase = m8BootHeap ∧ Layout heap [⟨m8BootHeapSize - 48, true⟩] ∧
      heapBootstrap k m8BootHeap = some (.ok
        { k with
          heap := heap
          serial := k.serial ++ messages heapTexts }) := by
  obtain ⟨fresh, hinit, hbase, hlayout⟩ := kmemInit_bootHeap k.heap hnull haligned hend
  obtain ⟨heap, ptr, heap', halloc, hptr, hfree, hbase', hlayout'⟩ :=
    probed_layout hlayout (n := 128) (by decide) (by decide)
  refine ⟨heap', hbase'.trans hbase, hlayout', ?_⟩
  simp only [heapBootstrap, hinit, Kernel.write, halloc, hfree, Option.bind_some, Option.map_some,
    messages, heapTexts, List.flatMap_cons, List.flatMap_nil, List.append_nil, List.append_assoc,
    ne_eq, not_true_eq_false, if_false, hptr]

end Heap

def sampleTexts : List String := ["[m6] sample frame alloc OK\n", "[m6] sample frame free OK\n"]

/-- A kernel that was started from a memory map: what it has sent since, its heap, the free
frames, and the frames that it will ever hand out. -/
structure Booted (entries : List LimineMemmapEntry) (m8BootHeap : Nat) (before k : Kernel) :
    Prop where
  interrupts : k.interrupts = true
  serial : ∃ sample, k.serial = before.serial ++
      messages ("[m6] pmm initialized\n" :: (sample ++ heapTexts)) ∧
    ((∃ g, Freed k.kernelPmm g) ∧ sample = sampleTexts ∨
      (∀ g, ¬Freed k.kernelPmm g) ∧ sample = [])
  heap_base : k.heap.gHeapBase = m8BootHeap
  heap : Layout k.heap [⟨m8BootHeapSize - 48, true⟩]
  kept : ∀ g, Freed k.kernelPmm g ↔
    Freed (initFrames before.kernelPmm before.kernelPmmBitmap entries).1 g
  free : BelowTop (entries.take 128) → ∀ g < 2 ^ 24,
    (pmmIsFrameFree k.kernelPmm (g * pmmPageSize) = true ↔ BootFree (entries.take 128) g)
  handed_out : ∀ trace r, Run pmmSystem ⟨k.kernelPmm, []⟩ trace r → ∀ physAddr,
    (.alloc, .frame physAddr) ∈ trace → physAddr ≠ pmmInvalidFrame →
      Freed k.kernelPmm (physAddr / pmmPageSize) ∧ physAddr % pmmPageSize = 0

section Boot

variable {entries : List LimineMemmapEntry}

theorem kernelMemoryInit_boots (k : Kernel) (hmap : entries ≠ []) :
    ∃ pmm sample, kernelMemoryInit k (some entries) = .ok
        { k with
          kernelPmm := pmm
          serial := k.serial ++ messages ("[m6] pmm initialized\n" :: sample) } ∧
      Offers pmm (Freed (initFrames k.kernelPmm k.kernelPmmBitmap entries).1) ∧
      ((∃ g, Freed pmm g) ∧ sample = sampleTexts ∨ (∀ g, ¬Freed pmm g) ∧ sample = []) := by
  have hinit := initFrames_succeeds k.kernelPmm k.kernelPmmBitmap hmap
  have hoffers : Offers (initFrames k.kernelPmm k.kernelPmmBitmap entries).1
      (Freed (initFrames k.kernelPmm k.kernelPmmBitmap entries).1) :=
    offers_freed (pmmInv_startRun hinit (by decide))
  have hlow : HintLow (initFrames k.kernelPmm k.kernelPmmBitmap entries).1 :=
    hintLow_startRun hinit
  have hcounted : Counted (initFrames k.kernelPmm k.kernelPmmBitmap entries).1 :=
    counted_startRun hinit (by decide)
  have hmemory : kernelMemoryInit k (some entries) = .ok (sampleFrame
      ({ k with kernelPmm := (initFrames k.kernelPmm k.kernelPmmBitmap entries).1 }.write
        "[m6] pmm initialized\n")) := by
    unfold initFrames at hinit ⊢
    simp only [kernelMemoryInit, hinit, Bool.true_eq_false, if_false]
  rw [hmemory]
  rcases offers_probed hoffers hlow hcounted with ⟨hfull, hnone⟩ | ⟨f, pmm, hf, hsome, hoffers'⟩
  · refine ⟨_, [], ?_, hoffers, .inr ⟨hfull, rfl⟩⟩
    simp [sampleFrame, Kernel.write, hnone, messages]
  · refine ⟨_, sampleTexts, ?_, hoffers', .inl ⟨⟨f, (hoffers'.freed f).mpr hf⟩, rfl⟩⟩
    simp [sampleFrame, Kernel.write, hsome, messages, sampleTexts, page_ne_invalid]

theorem Offers.handed_out {pmm : PmmState} {free : Nat → Prop} (h : Offers pmm free)
    {trace : List (PmmCall × PmmResult)} {r : PmmRun} (hrun : Run pmmSystem ⟨pmm, []⟩ trace r)
    {physAddr : Nat} (hmem : (.alloc, .frame physAddr) ∈ trace)
    (hvalid : physAddr ≠ pmmInvalidFrame) :
    free (physAddr / pmmPageSize) ∧ physAddr % pmmPageSize = 0 := by
  obtain ⟨-, hspec⟩ := pmmInv_run hrun h.inv
  obtain ⟨hlt, hnot, hpage⟩ := specRun_granted_not_withheld hspec h.inv.partition hmem hvalid
  constructor
  · rw [← h.mem_free]
    exact ((h.inv.partition.cover _).mp hlt).resolve_right
      (not_or.mpr ⟨List.not_mem_nil, hnot⟩)
  · rw [← hpage]
    exact Nat.mul_mod_left _ _

/-- Without a memory map, or with an empty one, the kernel stops behind a message.  From any
other map, whatever its entries are, it starts; the sample frame and the probe of the heap
leave no trace but their messages, and no frame is ever handed out that is not free then.
These are the frames that the map offers, if no entry reaches into the last page of the
address space. -/
theorem kernelMain_boots {m8BootHeap : Nat} (hnull : m8BootHeap ≠ 0)
    (haligned : m8BootHeap % 4096 = 0) (hend : m8BootHeap + m8BootHeapSize < 2 ^ 64)
    (stubs : UInt8 → UInt64) (idtTable : UInt64) (k : Kernel) :
    kernelMain stubs idtTable m8BootHeap k none = some (.error
        ({ k with idt := idtInitEarly stubs idtTable }.write
          "[m6] ERROR: no memmap response\n")) ∧
      kernelMain stubs idtTable m8BootHeap k (some []) = some (.error
        ({ k with idt := idtInitEarly stubs idtTable }.write
          "[m6] ERROR: pmm_init_from_map failed\n")) ∧
      ∀ entries, entries ≠ [] → ∃ k',
        kernelMain stubs idtTable m8BootHeap k (some entries) = some (.ok k') ∧
          Booted entries m8BootHeap k k' := by
  refine ⟨rfl, rfl, fun entries hmap => ?_⟩
  obtain ⟨pmm, sample, hmemory, hoffers, hsample⟩ :=
    kernelMemoryInit_boots { k with idt := idtInitEarly stubs idtTable } hmap
  obtain ⟨heap, hbase, hlayout, hheap⟩ := heapBootstrap_boots
    { k with
      idt := idtInitEarly stubs idtTable
      kernelPmm := pmm
      serial := k.serial ++ messages ("[m6] pmm initialized\n" :: sample) } hnull haligned hend
  have hmain : kernelMain stubs idtTable m8BootHeap k (some entries) = some (.ok
      { k with
        idt := idtInitEarly stubs idtTable
        kernelPmm := pmm
        heap := heap
        interrupts := true
        serial := k.serial ++ messages ("[m6] pmm initialized\n" :: sample) ++
          messages heapTexts }) := by
    rw [kernelMain, hmemory]
    dsimp only
    rw [hheap]
    rfl
  refine ⟨_, hmain, ?_⟩
  refine ⟨rfl, ⟨sample, ?_, hsample⟩, hbase, hlayout, hoffers.freed, ?_, ?_⟩
  · rw [List.append_assoc, messages, messages, messages, ← List.flatMap_append, List.cons_append]
  · intro htop g hg
    have hfreed := (hoffers.freed g).trans (freed_initFrames _ _ hmap htop hg)
    exact (and_iff_right hg).symm.trans hfreed
  · intro trace r hrun physAddr hmem hvalid
    obtain ⟨hfree, haligned⟩ := hoffers.handed_out hrun hmem hvalid
    exact ⟨(hoffers.freed _).mpr hfree, haligned⟩

/-- Memory from one to two megabytes with the kernel in the middle. -/
def smallMap : List LimineMemmapEntry :=
  [⟨0x100000, 0x100000, limineMemmapUsable⟩, ⟨0x180000, 0x8000, limineMemmapKernelAndModules⟩]

def coldKernel : Kernel :=
  ⟨[], (fun _ => ⟨0, 0, 0, 0, 0, 0, 0⟩, ⟨0, 0⟩), pmmZeroState, fun _ => 0,
    ⟨fun _ => 0, 0, 0, 0, false⟩, false⟩

theorem bootFree_smallMap : BootFree smallMap 256 := by
  refine ⟨by decide, ⟨_, List.mem_cons_self, rfl, ?_⟩, ?_⟩
  · rw [frameBytes, LimineMemmapEntry.bytes, Set.Ico_subset_Ico_iff (by decide)]
    decide
  · intro e he hreserved
    rw [frameBytes, LimineMemmapEntry.bytes, Set.Ico_disjoint_Ico]
    rcases List.mem_pair.mp he with rfl | rfl
    · exact absurd rfl hreserved
    · decide

theorem kernelMain_boots_smallMap :
    ∃ k, kernelMain (fun _ => 0) 0 0x8000 coldKernel (some smallMap) = some (.ok k) ∧
      k.serial = messages (["[m6] pmm initialized\n"] ++ sampleTexts ++ heapTexts) ∧
      pmmIsFrameFree k.kernelPmm 0x100000 = true := by
  obtain ⟨-, -, hboots⟩ := kernelMain_boots (show 0x8000 ≠ 0 by decide) (by decide)
    (by decide) (fun _ => 0) 0 coldKernel
  obtain ⟨k, hk, hbooted⟩ := hboots smallMap (by decide)
  have htop : BelowTop smallMap := by
    rw [BelowTop]
    decide
  have hfree := (hbooted.free htop 256 (by decide)).mpr bootFree_smallMap
  obtain ⟨sample, hserial, ⟨-, rfl⟩ | ⟨hnone, -⟩⟩ := hbooted.serial
  · exact ⟨k, hk, hserial, hfree⟩
  · exact absurd ⟨by decide, hfree⟩ (hnone 256)

end Boot

end Mcsos.KernelBoot

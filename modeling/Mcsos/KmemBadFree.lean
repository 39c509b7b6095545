import Mcsos.KmemHeap

/-!
Frees of pointers that are not live.  The allocator recognises a header by its magic number, so
what it rejects depends on the words that hold that number and are no header.
-/

namespace Mcsos.KmemBadFree

open Mcsos.ByteMemory
open Mcsos.CallSystem
open Mcsos.KmemModel
open Mcsos.KmemHeaders
open Mcsos.KmemBlocks
open Mcsos.KmemSegments
open Mcsos.KmemSplit
open Mcsos.KmemInit
open Mcsos.KmemRuns
open Mcsos.KmemHeap

/-- The store of a byte puts the magic number nowhere that a header could start, except at the
addresses in `stale`. -/
def StoresNoMagic (stale : Set Nat) (m : ByteMem) (addr : Nat) (value : UInt8) : Prop :=
  ∀ a, a % 16 = 0 → a ≤ addr → addr < a + 8 → a ∉ stale →
    blockMagic (writeLE m addr 1 value.toNat) a ≠ kmemMagic

/-- Any pointer may be freed, live or not, unless it is not live and its header would be at an
address in `stale`.  Stores stay inside live payloads and do not forge headers. -/
def KmemRun.Careful (stale : Set Nat) (r : KmemRun) : KmemCall → Prop
  | .alloc bytes => r.Allowed (.alloc bytes)
  | .calloc count bytes => r.Allowed (.calloc count bytes)
  | .free ptr =>
      ptr < 2 ^ 64 ∧ (kmemHeaderFromPayload ptr ∈ stale → r.Allowed (.free ptr))
  | .clientWrite addr value =>
      r.Allowed (.clientWrite addr value) ∧ StoresNoMagic stale r.heap.mem addr value

/-- The allocator with clients that may make bad frees. -/
def carefulSystem (stale : Set Nat) : System KmemRun KmemCall KmemResult where
  allowed := KmemRun.Careful stale
  step := KmemRun.step

/-- The words that look like headers and are none are all in `stale`. -/
def CarefulInv (stale : Set Nat) (heapBase heapEnd : Nat) (r : KmemRun) : Prop :=
  ∃ bs, HeapInv heapBase heapEnd r bs ∧ impostors heapEnd heapBase bs r.heap.mem ⊆ stale

/-- What `kmem_free_checked` asks of a pointer before it changes anything: the word before it
looks like the header of a block in use. -/
structure LooksUsed (s : KmemState) (q : Nat) : Prop where
  aligned : q % 16 = 0
  above : s.gHeapBase ≤ kmemHeaderFromPayload q
  below : kmemHeaderFromPayload q < s.gHeapEnd
  magic : blockMagic s.mem (kmemHeaderFromPayload q) = kmemMagic
  used : blockFree s.mem (kmemHeaderFromPayload q) = 0

theorem kmemFreeChecked_rejects {s : KmemState} {q : Nat} (hne : q ≠ 0) (h : ¬LooksUsed s q) :
    ∃ rc : Int, rc < 0 ∧ kmemFreeChecked s q = some (s, rc) := by
  unfold kmemFreeChecked
  rw [if_neg hne]
  by_cases hinside : kmemPtrInHeap s q = false
  · exact ⟨-1, by decide, if_pos hinside⟩
  rw [if_neg hinside]
  by_cases haligned : q &&& (kmemAlign - 1) ≠ 0
  · exact ⟨-2, by decide, if_pos haligned⟩
  rw [if_neg haligned]
  dsimp only
  by_cases hlooks : kmemPtrInHeap s (kmemHeaderFromPayload q) = false ∨
      blockMagic s.mem (kmemHeaderFromPayload q) ≠ kmemMagic
  · exact ⟨-3, by decide, if_pos hlooks⟩
  rw [if_neg hlooks]
  by_cases hfree : blockFree s.mem (kmemHeaderFromPayload q) ≠ 0
  · exact ⟨-4, by decide, if_pos hfree⟩
  exfalso
  rw [not_not] at hfree
  rw [not_not, and_kmemAlign] at haligned
  rw [not_or, Bool.not_eq_false, not_not, kmemPtrInHeap, Bool.and_eq_true, decide_eq_true_eq,
    decide_eq_true_eq] at hlooks
  exact h ⟨haligned, hlooks.1.1, hlooks.1.2, hlooks.2, hfree⟩

section Calls

variable {stale : Set Nat} {heapBase heapEnd : Nat} {r : KmemRun} {bs : List Block}

theorem LooksUsed.live {q : Nat} (h : LooksUsed r.heap q) (hinv : HeapInv heapBase heapEnd r bs)
    (hq : q < 2 ^ 64)
    (hclean : kmemHeaderFromPayload q ∉ impostors heapEnd heapBase bs r.heap.mem) :
    ∃ n, (q, n) ∈ r.live := by
  obtain ⟨haligned, habove, hbelow, hmagic, hfree⟩ := h
  rw [hinv.base_eq] at habove
  rw [hinv.end_eq] at hbelow
  have haddr : kmemHeaderFromPayload q = (q + 2 ^ 64 - 48) % 2 ^ 64 := rfl
  obtain ⟨b, hplaced⟩ : ∃ b, (kmemHeaderFromPayload q, b) ∈ placed heapBase bs := by
    by_contra hnone
    rw [not_exists] at hnone
    exact hclean ⟨by omega, habove, hbelow, hmagic, hnone⟩
  have hused : b.free = false := by
    have hplaced' := hplaced
    rw [← hinv.base_eq] at hplaced'
    obtain ⟨p, hheader⟩ := hinv.layout.segment.header_of_placed hplaced'
    rw [blockFree_eq, hheader] at hfree
    exact Bool.toNat_eq_zero.mp hfree
  have hptr : kmemHeaderFromPayload q + 48 = q := by
    have hbounds := placed_bounds hplaced
    have htiles := hinv.layout.tiles
    have hend := hinv.layout.end_bound
    rw [hinv.base_eq] at htiles
    omega
  rw [← hptr]
  exact hinv.live.complete _ b (mem_used.mpr ⟨hplaced, hused⟩)

theorem free_rejected (hinv : HeapInv heapBase heapEnd r bs) {q : Nat} (hq : q < 2 ^ 64)
    (hne : q ≠ 0) (hdead : ∀ n, (q, n) ∉ r.live)
    (hclean : kmemHeaderFromPayload q ∉ impostors heapEnd heapBase bs r.heap.mem) :
    ∃ rc : Int, rc < 0 ∧ kmemFreeChecked r.heap q = some (r.heap, rc) := by
  apply kmemFreeChecked_rejects hne
  intro hlooks
  obtain ⟨n, hlive⟩ := hlooks.live hinv hq hclean
  exact hdead n hlive

theorem impostors_clientWrite (hold : impostors heapEnd heapBase bs r.heap.mem ⊆ stale)
    {addr : Nat} {value : UInt8} (hstores : StoresNoMagic stale r.heap.mem addr value) :
    impostors heapEnd heapBase bs (writeLE r.heap.mem addr 1 value.toNat) ⊆ stale := by
  rintro a ⟨ha, hlow, hhigh, hmagic, hnone⟩
  by_contra hfresh
  by_cases hword : a ≤ addr ∧ addr < a + 8
  · exact hstores a ha hword.1 hword.2 hfresh hmagic
  · have hsame : blockMagic (writeLE r.heap.mem addr 1 value.toNat) a =
        blockMagic r.heap.mem a :=
      readLE_congr fun x hxlow hxhigh => writeLE_outside (by omega)
    rw [hsame] at hmagic
    exact hfresh (hold ⟨ha, hlow, hhigh, hmagic, hnone⟩)

theorem carefulInv_step (hinv : CarefulInv stale heapBase heapEnd r) {call : KmemCall}
    (hcareful : KmemRun.Careful stale r call) {r' : KmemRun} {result : KmemResult}
    (hstep : r.step call = some (r', result)) : CarefulInv stale heapBase heapEnd r' := by
  obtain ⟨bs, hinv, hold⟩ := hinv
  cases call with
  | alloc bytes =>
      obtain ⟨heap, ptr, bs', hcall, hinv', -, -, hsubset⟩ := heapInv_alloc hinv hcareful
      rw [KmemRun.step, hcall, Option.map_some] at hstep
      cases hstep
      exact ⟨bs', hinv', hsubset.trans hold⟩
  | calloc count bytes =>
      obtain ⟨heap, ptr, bs', hcall, hinv', -, -, hsubset⟩ := heapInv_calloc hinv count bytes
      rw [KmemRun.step, hcall, Option.map_some] at hstep
      cases hstep
      exact ⟨bs', hinv', hsubset.trans hold⟩
  | free ptr =>
      obtain ⟨hptr, hstale⟩ := hcareful
      by_cases hgood : r.Allowed (.free ptr)
      · obtain ⟨heap, rc, bs', hcall, hinv', -, hsubset⟩ := heapInv_free hinv hgood
        rw [KmemRun.step, hcall, Option.map_some] at hstep
        cases hstep
        exact ⟨bs', hinv', hsubset.trans hold⟩
      · have hclean : kmemHeaderFromPayload ptr ∉ impostors heapEnd heapBase bs r.heap.mem :=
          fun hmem => hgood (hstale (hold hmem))
        rw [KmemRun.Allowed, not_or, not_exists] at hgood
        obtain ⟨rc, -, hcall⟩ := free_rejected hinv hptr hgood.1 hgood.2 hclean
        rw [KmemRun.step, hcall, Option.map_some, filter_of_dead hgood.2] at hstep
        cases hstep
        exact ⟨bs, hinv, hold⟩
  | clientWrite addr value =>
      cases hstep
      exact ⟨bs, heapInv_clientWrite hinv hcareful.1, impostors_clientWrite hold hcareful.2⟩

end Calls

/-- The addresses behind the first header of a heap at which a header could start and a word
holds the magic number. -/
def leftovers (m : ByteMem) (heapBase heapEnd : Nat) : Set Nat :=
  { a | heapBase + 48 ≤ a ∧ a < heapEnd ∧ a % 16 = 0 ∧ blockMagic m a = kmemMagic }

section Runs

variable {s : KmemState} {base bytes : Nat} {r : KmemRun} {trace : List (KmemCall × KmemResult)}

theorem carefulInv_startRun (hinit : (kmemInit s base bytes).2 = 0) (hbase : base < 2 ^ 64)
    (hbytes : bytes < 2 ^ 64) (hpart : PartOfSpace base bytes) {stale : Set Nat}
    (hstale : leftovers s.mem (heapStart base) (heapStop base bytes) ⊆ stale) :
    CarefulInv stale (startRun s base bytes).heap.gHeapBase
      (startRun s base bytes).heap.gHeapEnd (startRun s base bytes) := by
  obtain ⟨size, hinv⟩ := heapInv_startRun hinit hbase hbytes hpart
  refine ⟨_, hinv, ?_⟩
  have hend : (freshHeap s.mem (heapStart base) (heapStop base bytes)).gHeapEnd ≤
      heapStop base bytes := Nat.mod_le _ _
  rw [startRun, kmemInit_eq hbase hbytes hinit] at hinv ⊢
  rintro a ⟨ha, hlow, hhigh, hmagic, hnone⟩
  have hfirst : (heapStart base, (⟨size, true⟩ : Block)) ∈ placed (heapStart base) [⟨size, true⟩] :=
    List.mem_cons_self
  have hbehind : heapStart base + 48 ≤ a := by
    by_contra hlt
    obtain ⟨hfree, hnext⟩ := hinv.layout.header_links hfirst
    have hstart := start_of_magic hmagic hfree hnext (hinv.layout.placed_aligned hfirst) ha hlow
      (by omega)
    rw [hstart] at hnone
    exact hnone _ hfirst
  have hsame : blockMagic (freshHeap s.mem (heapStart base) (heapStop base bytes)).mem a =
      blockMagic s.mem a :=
    readLE_congr fun x hxlow hxhigh => freshHeader_onlyHeader _ _ _ _ _ x (by omega)
  rw [hsame] at hmagic
  exact hstale ⟨hbehind, lt_of_lt_of_le hhigh hend, ha, hmagic⟩

theorem carefulInv_run (hinit : (kmemInit s base bytes).2 = 0) (hbase : base < 2 ^ 64)
    (hbytes : bytes < 2 ^ 64) (hpart : PartOfSpace base bytes) {stale : Set Nat}
    (hstale : leftovers s.mem (heapStart base) (heapStop base bytes) ⊆ stale)
    (hrun : Run (carefulSystem stale) (startRun s base bytes) trace r) :
    CarefulInv stale (startRun s base bytes).heap.gHeapBase
      (startRun s base bytes).heap.gHeapEnd r := by
  have hstart := carefulInv_startRun hinit hbase hbytes hpart hstale
  refine hrun.invariant (CarefulInv stale _ _) ?_ hstart
  exact fun r call r' result hinv hcareful hstep => carefulInv_step hinv hcareful hstep

/-- A heap over memory without the magic number, and clients that do not store it: whatever
pointers they have freed, those that are not live are rejected, and nothing changes. -/
theorem run_free_rejected (hinit : (kmemInit s base bytes).2 = 0)
    (hend : base + bytes ≤ 2 ^ 64 - 4096)
    (hclear : ∀ a, a % 16 = 0 → base ≤ a → a + 8 ≤ base + bytes →
      blockMagic s.mem a ≠ kmemMagic)
    (hrun : Run (carefulSystem ∅) (startRun s base bytes) trace r) {q : Nat} (hq : q < 2 ^ 64)
    (hne : q ≠ 0) (hdead : ∀ n, (q, n) ∉ r.live) :
    ∃ rc : Int, rc < 0 ∧ kmemFreeChecked r.heap q = some (r.heap, rc) := by
  have hnone : leftovers s.mem (heapStart base) (heapStop base bytes) ⊆ ∅ := by
    rintro a ⟨hbehind, hhigh, ha, hmagic⟩
    obtain ⟨hstart, -, -⟩ := heapStart_spec base
    obtain ⟨hstop, -, haligned⟩ := heapStop_spec base bytes
    exact absurd hmagic (hclear a ha (by omega) (by omega))
  obtain ⟨bs, hinv, himpostors⟩ :=
    carefulInv_run hinit (by omega) (by omega) (.inr (by omega)) hnone hrun
  exact free_rejected hinv hq hne hdead fun hmem => himpostors hmem

theorem run_free_rejected_freedRun :
    (∀ n, (4144, n) ∉ freedRun.1.live) ∧
      ∃ rc : Int, rc < 0 ∧ kmemFreeChecked freedRun.1.heap 4144 = some (freedRun.1.heap, rc) := by
  have hlive : freedRun.1.live = [] := by decide
  have hdead : ∀ n, (4144, n) ∉ freedRun.1.live := by
    intro n hmem
    rw [hlive] at hmem
    cases hmem
  have halloc : (carefulSystem ∅).allowed (startRun unusedHeap 4096 256) (.alloc 24) :=
    show 24 < 2 ^ 64 by decide
  have hfree : (carefulSystem ∅).allowed allocatedRun.1 (.free 4144) :=
    ⟨by decide, fun hmem => absurd hmem (Set.notMem_empty _)⟩
  have hrun : Run (carefulSystem ∅) (startRun unusedHeap 4096 256)
      [(.alloc 24, .pointer 4144), (.free 4144, .code 0)] freedRun.1 :=
    .cons halloc step_allocatedRun (.cons hfree step_freedRun (.nil _))
  have hclear : ∀ a, a % 16 = 0 → 4096 ≤ a → a + 8 ≤ 4096 + 256 →
      blockMagic unusedHeap.mem a ≠ kmemMagic := by
    intro a _ _ _ hmagic
    have hzero : blockMagic unusedHeap.mem a = 0 := by
      simp [blockMagic, readLE, unusedHeap]
    rw [hzero] at hmagic
    cases hmagic
  exact ⟨hdead, run_free_rejected (by decide) (by decide) hclear hrun (by decide) (by decide) hdead⟩

/-- The allocator with clients that do whatever they want. -/
def anyCallSystem : System KmemRun KmemCall KmemResult where
  allowed := fun _ _ => True
  step := KmemRun.step

theorem kmemAllocLoop_lt {wanted fuel cur ptr : Nat} {s' : KmemState}
    (h : kmemAllocLoop s wanted fuel cur = some (s', ptr)) : ptr < 2 ^ 64 := by
  induction fuel generalizing cur with
  | zero => cases h
  | succ fuel ih =>
      rw [kmemAllocLoop] at h
      split at h
      · cases h
        decide
      split at h
      · cases h
        decide
      split at h
      · cases h
        exact Nat.mod_lt _ (by decide)
      · exact ih h

theorem kmemAlloc_lt {bytes ptr : Nat} {s' : KmemState}
    (h : kmemAlloc s bytes = some (s', ptr)) : ptr < 2 ^ 64 := by
  unfold kmemAlloc at h
  split at h
  · cases h
    decide
  dsimp only at h
  split at h
  · cases h
    decide
  · exact kmemAllocLoop_lt h

theorem kmemCalloc_lt {count bytes ptr : Nat} {s' : KmemState}
    (h : kmemCalloc s count bytes = some (s', ptr)) : ptr < 2 ^ 64 := by
  unfold kmemCalloc at h
  split at h
  · cases h
    decide
  obtain ⟨⟨s₁, ptr₁⟩, halloc, heq⟩ := Option.map_eq_some_iff.mp h
  have hlt := kmemAlloc_lt halloc
  dsimp only at heq
  split at heq
  · cases heq
    exact hlt
  · cases heq
    exact hlt

theorem pointer_lt {r r' : KmemRun} (hrun : Run anyCallSystem r trace r') {call : KmemCall}
    {q : Nat} (hmem : (call, .pointer q) ∈ trace) : q < 2 ^ 64 := by
  induction hrun with
  | nil r => cases hmem
  | @cons r t u call' result trace hallowed hstep hrest ih =>
      rcases List.mem_cons.mp hmem with heq | hmem
      · cases heq
        change r.step call = _ at hstep
        cases call with
        | alloc bytes =>
            obtain ⟨⟨heap, ptr⟩, hcall, heq⟩ := Option.map_eq_some_iff.mp hstep
            cases heq
            exact kmemAlloc_lt hcall
        | calloc count bytes =>
            obtain ⟨⟨heap, ptr⟩, hcall, heq⟩ := Option.map_eq_some_iff.mp hstep
            cases heq
            exact kmemCalloc_lt hcall
        | free ptr =>
            obtain ⟨⟨heap, rc⟩, -, heq⟩ := Option.map_eq_some_iff.mp hstep
            cases heq
        | clientWrite addr value => cases hstep
      · exact ih hmem

end Runs

section Reinit

variable {s : KmemState} {base bytes : Nat} {r₁ r₂ : KmemRun}
  {trace₁ trace₂ : List (KmemCall × KmemResult)}

/-- After a second initialisation of the region, a pointer that was returned before it is
rejected unless it is live again, provided that the old heap had left no magic number where the
header of such a pointer would be.  The clients of the new heap may free these pointers, and any
others before which no magic number was left. -/
theorem reinit_free_rejected (hbase : base < 2 ^ 64) (hbytes : bytes < 2 ^ 64)
    (hpart : PartOfSpace base bytes)
    (hrun₁ : Run anyCallSystem (startRun s base bytes) trace₁ r₁)
    (hinit : (kmemInit r₁.heap base bytes).2 = 0)
    (hcleared : ∀ call q, (call, .pointer q) ∈ trace₁ → q ≠ 0 →
      kmemHeaderFromPayload q ∉
        leftovers r₁.heap.mem (heapStart base) (heapStop base bytes))
    (hrun₂ : Run
      (carefulSystem (leftovers r₁.heap.mem (heapStart base) (heapStop base bytes)))
      (startRun r₁.heap base bytes) trace₂ r₂)
    {call : KmemCall} {q : Nat} (hold : (call, .pointer q) ∈ trace₁) (hne : q ≠ 0)
    (hdead : ∀ n, (q, n) ∉ r₂.live) :
    ∃ rc : Int, rc < 0 ∧ kmemFreeChecked r₂.heap q = some (r₂.heap, rc) := by
  obtain ⟨bs, hinv, himpostors⟩ := carefulInv_run hinit hbase hbytes hpart subset_rfl hrun₂
  refine free_rejected hinv (pointer_lt hrun₁ hold) hne hdead fun hmem => ?_
  exact hcleared call q hold hne (himpostors hmem)

/-- The heap of the first run after another `kmem_alloc(24)`. -/
def reusedRun : KmemRun × KmemResult :=
  (allocatedRun.1.step (.alloc 24)).getD (allocatedRun.1, .done)

theorem step_reusedRun : allocatedRun.1.step (.alloc 24) = some (reusedRun.1, .pointer 4224) :=
  step_of_getD (by decide) (by decide)

/-- Both allocations are freed, and the blocks are merged. -/
def secondFreed : KmemRun × KmemResult :=
  (reusedRun.1.step (.free 4224)).getD (reusedRun.1, .done)

theorem step_secondFreed : reusedRun.1.step (.free 4224) = some (secondFreed.1, .code 0) :=
  step_of_getD (by decide) (by decide)

def mergedRun : KmemRun × KmemResult :=
  (secondFreed.1.step (.free 4144)).getD (secondFreed.1, .done)

theorem step_mergedRun : secondFreed.1.step (.free 4144) = some (mergedRun.1, .code 0) :=
  step_of_getD (by decide) (by decide)

/-- The new heap after an allocation that covers the header of the second old one. -/
def coveredRun : KmemRun × KmemResult :=
  ((startRun mergedRun.1.heap 4096 256).step (.alloc 100)).getD
    (startRun mergedRun.1.heap 4096 256, .done)

theorem step_coveredRun :
    (startRun mergedRun.1.heap 4096 256).step (.alloc 100) = some (coveredRun.1, .pointer 4144) :=
  step_of_getD (by decide) (by decide)

theorem reinit_free_rejected_mergedRun :
    coveredRun.1.live = [(4144, 100)] ∧
      ∃ rc : Int, rc < 0 ∧
        kmemFreeChecked coveredRun.1.heap 4224 = some (coveredRun.1.heap, rc) := by
  have hinit : (kmemInit mergedRun.1.heap 4096 256).2 = 0 := by decide
  have hrun : Run anyCallSystem (startRun unusedHeap 4096 256)
      [(.alloc 24, .pointer 4144), (.alloc 24, .pointer 4224), (.free 4224, .code 0),
        (.free 4144, .code 0)] mergedRun.1 :=
    .cons trivial step_allocatedRun (.cons trivial step_reusedRun
      (.cons trivial step_secondFreed (.cons trivial step_mergedRun (.nil _))))
  have hrun' : Run
      (carefulSystem (leftovers mergedRun.1.heap.mem (heapStart 4096) (heapStop 4096 256)))
      (startRun mergedRun.1.heap 4096 256) [(.alloc 100, .pointer 4144)] coveredRun.1 :=
    .cons (show 100 < 2 ^ 64 by decide) step_coveredRun (.nil _)
  have hlive : coveredRun.1.live = [(4144, 100)] := by decide
  refine ⟨hlive, reinit_free_rejected (by decide) (by decide) (.inl (by decide)) hrun hinit ?_
    hrun' (List.mem_cons_of_mem _ List.mem_cons_self) (by decide) fun n hmem => ?_⟩
  · intro call q hmem _ hleft
    have hcases : call = .alloc 24 ∧ q = 4144 ∨ call = .alloc 24 ∧ q = 4224 := by
      simpa using hmem
    rcases hcases with ⟨-, rfl⟩ | ⟨-, rfl⟩
    · -- the pointer behind the first header, which is that of the new heap
      exact absurd hleft.1 (by decide)
    · -- the header of the other one was cleared when it was merged
      exact absurd hleft.2.2.2 (by decide)
  · rw [hlive] at hmem
    cases List.mem_singleton.mp hmem

/-- Two allocations, and the region is initialised again: the header of the second one is still
there, and to free it is reported as a success. -/
theorem reinit_free_accepted :
    Run kmemSystem (startRun unusedHeap 4096 256)
        [(.alloc 24, .pointer 4144), (.alloc 24, .pointer 4224)] reusedRun.1 ∧
      (kmemInit reusedRun.1.heap 4096 256).2 = 0 ∧
      (startRun reusedRun.1.heap 4096 256).live = [] ∧
      ∃ heap, kmemFreeChecked (startRun reusedRun.1.heap 4096 256).heap 4224 = some (heap, 0) ∧
        heap.mem ≠ (startRun reusedRun.1.heap 4096 256).heap.mem := by
  have hfirst : kmemSystem.allowed (startRun unusedHeap 4096 256) (.alloc 24) :=
    show 24 < 2 ^ 64 by decide
  have hsecond : kmemSystem.allowed allocatedRun.1 (.alloc 24) := show 24 < 2 ^ 64 by decide
  refine ⟨.cons hfirst step_allocatedRun (.cons hsecond step_reusedRun (.nil _)), by decide, rfl,
    ?_⟩
  have hcode : (kmemFreeChecked (startRun reusedRun.1.heap 4096 256).heap 4224).map Prod.snd =
      some 0 := by decide
  have hflag : (kmemFreeChecked (startRun reusedRun.1.heap 4096 256).heap 4224).map
      (fun result => blockFree result.1.mem 4176) = some 1 := by decide
  obtain ⟨⟨heap, rc⟩, hfree, rfl⟩ := Option.map_eq_some_iff.mp hcode
  rw [hfree, Option.map_some, Option.some.injEq] at hflag
  refine ⟨heap, hfree, fun hsame => ?_⟩
  dsimp only at hflag
  rw [hsame] at hflag
  exact absurd hflag (by decide)

end Reinit

end Mcsos.KmemBadFree

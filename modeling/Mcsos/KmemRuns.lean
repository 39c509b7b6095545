import Mcsos.CallSystem
import Mcsos.KmemInit
import Mcsos.KmemOperations

namespace Mcsos.KmemRuns

open Mcsos.ByteMemory
open Mcsos.CallSystem
open Mcsos.KmemModel
open Mcsos.KmemHeaders
open Mcsos.KmemBlocks
open Mcsos.KmemSegments
open Mcsos.KmemSplit
open Mcsos.KmemMerge
open Mcsos.KmemOperations
open Mcsos.KmemInit
open Mcsos.WordArithmetic

/-- What clients do: the three allocator calls, and stores of a byte. -/
inductive KmemCall where
  | alloc (bytes : Nat)
  | calloc (count bytes : Nat)
  | free (ptr : Nat)
  | clientWrite (addr : Nat) (value : UInt8)
deriving DecidableEq

/-- What a call returns: a pointer, a code, or nothing. -/
inductive KmemResult where
  | pointer (ptr : Nat)
  | code (rc : Int)
  | done
deriving DecidableEq

/-- The heap with the live allocations: the pointers that were returned and not
freed since, each with the number of bytes requested. -/
structure KmemRun where
  heap : KmemState
  live : List (Nat × Nat)

/-- The bytes that a call asks for, in exact integers. -/
def KmemCall.request : KmemCall → Option Nat
  | .alloc bytes => some bytes
  | .calloc count bytes => some (count * bytes)
  | _ => none

/-- Arguments are 64-bit, pointers are freed while they are live, and stores stay
inside the payload of a live block. -/
def KmemRun.Allowed (r : KmemRun) : KmemCall → Prop
  | .alloc bytes => bytes < 2 ^ 64
  | .calloc count bytes => count < 2 ^ 64 ∧ bytes < 2 ^ 64
  | .free ptr => ptr = 0 ∨ ∃ n, (ptr, n) ∈ r.live
  | .clientWrite addr _ =>
      ∃ ptr n, (ptr, n) ∈ r.live ∧ ptr ≤ addr ∧
        addr < ptr + blockSize r.heap.mem (kmemHeaderFromPayload ptr)

def KmemRun.grant (r : KmemRun) (bytes : Nat) (result : KmemState × Nat) :
    KmemRun × KmemResult :=
  (⟨result.1, if result.2 = 0 then r.live else (result.2, bytes) :: r.live⟩,
    .pointer result.2)

def KmemRun.step (r : KmemRun) : KmemCall → Option (KmemRun × KmemResult)
  | .alloc bytes => (kmemAlloc r.heap bytes).map (r.grant bytes)
  | .calloc count bytes => (kmemCalloc r.heap count bytes).map (r.grant (count * bytes))
  | .free ptr => (kmemFreeChecked r.heap ptr).map fun (heap, rc) =>
      (⟨heap, r.live.filter fun pn => decide (pn.1 ≠ ptr)⟩, .code rc)
  | .clientWrite addr value =>
      some (⟨{ r.heap with mem := writeLE r.heap.mem addr 1 value.toNat }, r.live⟩, .done)

/-- Clients and allocator together. -/
def kmemSystem : System KmemRun KmemCall KmemResult where
  allowed := KmemRun.Allowed
  step := KmemRun.step

/-- The state in which clients find the heap after `kmem_init`. -/
def startRun (s : KmemState) (base bytes : Nat) : KmemRun :=
  ⟨(kmemInit s base bytes).1, []⟩

/-- The live allocations are exactly the used blocks. -/
structure LiveMatches (base : Nat) (bs : List Block) (live : List (Nat × Nat)) : Prop where
  sound : ∀ ptr n, (ptr, n) ∈ live → ∃ a b, (a, b) ∈ used base bs ∧ ptr = a + 48 ∧ n ≤ b.size
  complete : ∀ a b, (a, b) ∈ used base bs → ∃ n, (a + 48, n) ∈ live
  nodup : (live.map Prod.fst).Nodup

structure HeapInv (heapBase heapEnd : Nat) (r : KmemRun) (bs : List Block) : Prop where
  base_eq : r.heap.gHeapBase = heapBase
  end_eq : r.heap.gHeapEnd = heapEnd
  layout : Layout r.heap bs
  merged : NoAdjacentFree bs
  live : LiveMatches heapBase bs r.live

theorem payload_not_headerByte {cur a x : Nat} {b : Block} {bs : List Block}
    (hmem : (a, b) ∈ placed cur bs) (hlow : a + 48 ≤ x) (hhigh : x < a + 48 + b.size) :
    ¬HeaderByte cur bs x := by
  rintro ⟨h, c, hc, hle, hlt⟩
  rcases placed_disjoint hmem hc with ⟨rfl, rfl⟩ | hapart | hapart <;> omega

theorem layout_payload {s : KmemState} {bs : List Block} {a : Nat} {b : Block} {m' : ByteMem}
    (h : Layout s bs) (hmem : (a, b) ∈ placed s.gHeapBase bs)
    (hsame : ∀ x, x < a + 48 ∨ a + 48 + b.size ≤ x → m' x = s.mem x) :
    Layout { s with mem := m' } bs where
  initialized := h.initialized
  head := h.head
  base_pos := h.base_pos
  base_aligned := h.base_aligned
  end_bound := h.end_bound
  span := h.span
  sizes := h.sizes
  nonempty := h.nonempty
  tiles := h.tiles
  segment := by
    refine h.segment.congr fun k c hk => header_congr fun x hlow hhigh => hsame x ?_
    rcases placed_disjoint hmem hk with ⟨rfl, rfl⟩ | hapart | hapart <;> omega

theorem LiveMatches.not_mem {base : Nat} {bs : List Block} {live : List (Nat × Nat)}
    (h : LiveMatches base bs live) {a : Nat}
    (hfresh : ∀ b, (a, b) ∉ used base bs) : a + 48 ∉ live.map Prod.fst := by
  intro hmem
  obtain ⟨⟨ptr, n⟩, hpn, hptr⟩ := List.mem_map.mp hmem
  obtain ⟨a', b, hused, heq, -⟩ := h.sound ptr n hpn
  have : a' = a := by
    dsimp only at hptr
    omega
  subst this
  exact hfresh b hused

theorem not_mem_used_of_free {cur a : Nat} {b : Block} {bs : List Block}
    (hmem : (a, b) ∈ placed cur bs) (hfree : b.free = true) (c : Block) :
    (a, c) ∉ used cur bs := by
  intro hused
  obtain ⟨hplaced, hc⟩ := mem_used.mp hused
  rcases placed_disjoint hmem hplaced with ⟨-, rfl⟩ | hapart | hapart
  · simp [hfree] at hc
  · omega
  · omega

theorem heapInv_startRun {s : KmemState} {base bytes : Nat}
    (hinit : (kmemInit s base bytes).2 = 0) (hbase : base < 2 ^ 64) (hbytes : bytes < 2 ^ 64)
    (hpart : PartOfSpace base bytes) :
    ∃ size, HeapInv (startRun s base bytes).heap.gHeapBase
      (startRun s base bytes).heap.gHeapEnd (startRun s base bytes) [⟨size, true⟩] := by
  obtain ⟨size, hlayout⟩ := kmemInit_layout hbase hbytes hpart hinit
  refine ⟨size, rfl, rfl, hlayout, List.IsChain.singleton _, ?_⟩
  exact ⟨by simp [startRun], by simp [used_cons], by simp [startRun]⟩

section Calls

variable {heapBase heapEnd : Nat} {r : KmemRun} {bs : List Block}

/-- The bytes of the live allocations other than `ptr` are as they were. -/
def KeepsLive (r : KmemRun) (ptr : Nat) (m' : ByteMem) : Prop :=
  ∀ p n, (p, n) ∈ r.live → p ≠ ptr → ∀ a, p ≤ a → a < p + n → m' a = r.heap.mem a

theorem keepsLive_of_onlyHeaders {bs' : List Block} {m' : ByteMem} {ptr : Nat}
    (hinv : HeapInv heapBase heapEnd r bs)
    (hframe : OnlyHeaders heapBase bs bs' r.heap.mem m')
    (hkept : ∀ a b, (a, b) ∈ used heapBase bs → a + 48 ≠ ptr → (a, b) ∈ used heapBase bs') :
    KeepsLive r ptr m' := by
  intro p n hlive hne x hlow hhigh
  obtain ⟨a, b, hused, rfl, hle⟩ := hinv.live.sound p n hlive
  have hused' := hkept a b hused hne
  exact hframe x
    (payload_not_headerByte (mem_used.mp hused).1 hlow (by omega))
    (payload_not_headerByte (mem_used.mp hused').1 hlow (by omega))

theorem liveMatches_grant {first rest : List (Nat × Block)} {live : List (Nat × Nat)}
    {bs₁ bs₂ : List Block} {a n : Nat} {b : Block}
    (hlive : LiveMatches heapBase bs₁ live)
    (hold : used heapBase bs₁ = first ++ rest)
    (hnew : used heapBase bs₂ = first ++ ([(a, b)] ++ rest))
    (hfresh : a + 48 ∉ live.map Prod.fst) (hn : n ≤ b.size) :
    LiveMatches heapBase bs₂ ((a + 48, n) :: live) := by
  refine ⟨?_, ?_, ?_⟩
  · intro p k hmem
    rcases List.mem_cons.mp hmem with heq | hmem
    · cases heq
      exact ⟨a, b, by simp [hnew], rfl, hn⟩
    · obtain ⟨a', b', hused, heq, hle⟩ := hlive.sound p k hmem
      rw [hold, List.mem_append] at hused
      refine ⟨a', b', ?_, heq, hle⟩
      rw [hnew, List.mem_append, List.mem_append]
      rcases hused with hused | hused
      · exact .inl hused
      · exact .inr (.inr hused)
  · intro a' b' hused
    rw [hnew, List.mem_append, List.mem_append, List.mem_singleton] at hused
    have hother : (a', b') ∈ used heapBase bs₁ → ∃ k, (a' + 48, k) ∈ (a + 48, n) :: live := by
      intro hmem
      obtain ⟨k, hk⟩ := hlive.complete a' b' hmem
      exact ⟨k, List.mem_cons_of_mem _ hk⟩
    rcases hused with hused | heq | hused
    · exact hother (by simp [hold, hused])
    · cases heq
      exact ⟨n, by simp⟩
    · exact hother (by simp [hold, hused])
  · rw [List.map_cons, List.nodup_cons]
    exact ⟨hfresh, hlive.nodup⟩

theorem heapInv_alloc (hinv : HeapInv heapBase heapEnd r bs) {bytes : Nat}
    (hbytes : bytes < 2 ^ 64) :
    ∃ heap ptr bs', kmemAlloc r.heap bytes = some (heap, ptr) ∧
      HeapInv heapBase heapEnd (r.grant bytes (heap, ptr)).1 bs' ∧
      KeepsLive r 0 heap.mem ∧
      (ptr ≠ 0 → ptr ∉ r.live.map Prod.fst) ∧
      impostors heapEnd heapBase bs' heap.mem ⊆ impostors heapEnd heapBase bs r.heap.mem := by
  rcases kmemAlloc_layout hinv.layout hbytes with
    ⟨hnone, -⟩ | ⟨heap, bs', ptr, pre, post, b, hsome, hserves⟩
  · exact ⟨r.heap, 0, bs, hnone, by simpa [KmemRun.grant] using hinv,
      fun _ _ _ _ _ _ _ => rfl, fun h => absurd rfl h, subset_rfl⟩
  · have himpostors := hserves.impostors_subset hinv.layout
    rw [hinv.base_eq, hinv.end_eq] at himpostors
    obtain ⟨rfl, hfits, -, henough, rfl, rfl, hlayout, hbase, hend, hframe⟩ := hserves
    rw [hinv.base_eq] at *
    have hold := used_middle heapBase pre b post
    rw [if_pos hfits.1, List.nil_append] at hold
    have hnew := used_middle_carve heapBase pre b post (kmemAlignUpSize bytes kmemAlign)
    have hfresh : heapBase + extent pre + 48 ∉ r.live.map Prod.fst :=
      hinv.live.not_mem (not_mem_used_of_free (mem_placed_middle _ _ _ _) hfits.1)
    refine ⟨heap, _, _, hsome, ⟨hbase, hend.trans hinv.end_eq, hlayout,
      noAdjacentFree_carve _ hfits.1 hinv.merged, ?_⟩, ?_, fun _ => hfresh, himpostors⟩
    · rw [KmemRun.grant, if_neg (by omega)]
      refine liveMatches_grant hinv.live hold hnew hfresh ?_
      have := hfits.2
      dsimp only
      split <;> omega
    · refine keepsLive_of_onlyHeaders hinv hframe fun a c hused _ => ?_
      rw [hold, List.mem_append] at hused
      rw [hnew, List.mem_append, List.mem_append]
      rcases hused with hused | hused
      · exact .inl hused
      · exact .inr (.inr hused)

theorem HeapInv.live_disjoint (hinv : HeapInv heapBase heapEnd r bs) {p n q k : Nat}
    (hp : (p, n) ∈ r.live) (hq : (q, k) ∈ r.live) (hne : p ≠ q) :
    p + n ≤ q ∨ q + k ≤ p := by
  obtain ⟨a, b, hused, rfl, hle⟩ := hinv.live.sound p n hp
  obtain ⟨a', b', hused', rfl, hle'⟩ := hinv.live.sound q k hq
  rcases placed_disjoint (mem_used.mp hused).1 (mem_used.mp hused').1 with
    ⟨rfl, -⟩ | hapart | hapart
  · exact absurd rfl hne
  · omega
  · omega

theorem heapInv_payload (hinv : HeapInv heapBase heapEnd r bs) {a : Nat} {b : Block}
    {m' : ByteMem} (hused : (a, b) ∈ used heapBase bs)
    (hsame : ∀ x, x < a + 48 ∨ a + 48 + b.size ≤ x → m' x = r.heap.mem x) :
    HeapInv heapBase heapEnd ⟨{ r.heap with mem := m' }, r.live⟩ bs where
  base_eq := hinv.base_eq
  end_eq := hinv.end_eq
  layout := by
    refine layout_payload hinv.layout ?_ hsame
    rw [hinv.base_eq]
    exact (mem_used.mp hused).1
  merged := hinv.merged
  live := hinv.live

theorem calloc_total {count bytes : Nat}
    (hover : ¬(count ≠ 0 ∧ (2 ^ 64 - 1) / count < bytes)) : count * bytes < 2 ^ 64 := by
  by_cases hcount : count = 0
  · simp [hcount]
  · have hle : bytes ≤ (2 ^ 64 - 1) / count := by
      by_contra hlt
      exact hover ⟨hcount, by omega⟩
    have := (Nat.le_div_iff_mul_le (Nat.pos_of_ne_zero hcount)).mp hle
    rw [Nat.mul_comm] at this
    omega

theorem fill_zero_words (m : ByteMem) {ptr : Nat} (hptr : ptr % 16 = 0) (n a : Nat)
    (ha : a % 16 = 0) (hmagic : blockMagic (fill m ptr n 0) a = kmemMagic) :
    blockMagic m a = kmemMagic := by
  by_cases hin : ptr ≤ a ∧ a < ptr + n
  · have hword := readLE_add (fill m ptr n 0) a 1 7
    have hzero : readLE (fill m ptr n 0) a 1 = 0 := by
      rw [readLE, fill_inside hin.1 hin.2, readLE]
      rfl
    rw [hzero] at hword
    change blockMagic (fill m ptr n 0) a = _ at hword
    rw [hmagic, kmemMagic] at hword
    omega
  · have hsame : blockMagic (fill m ptr n 0) a = blockMagic m a :=
      readLE_congr fun x hlow hhigh => fill_outside (by omega)
    rw [hsame] at hmagic
    exact hmagic

theorem heapInv_calloc (hinv : HeapInv heapBase heapEnd r bs) (count bytes : Nat) :
    ∃ heap ptr bs', kmemCalloc r.heap count bytes = some (heap, ptr) ∧
      HeapInv heapBase heapEnd (r.grant (count * bytes) (heap, ptr)).1 bs' ∧
      KeepsLive r 0 heap.mem ∧
      (ptr ≠ 0 → ∀ a, ptr ≤ a → a < ptr + count * bytes → heap.mem a = 0) ∧
      impostors heapEnd heapBase bs' heap.mem ⊆ impostors heapEnd heapBase bs r.heap.mem := by
  unfold kmemCalloc
  by_cases hover : count ≠ 0 ∧ (2 ^ 64 - 1) / count < bytes
  · exact ⟨r.heap, 0, bs, if_pos hover, by simpa [KmemRun.grant] using hinv,
      fun _ _ _ _ _ _ _ => rfl, fun h => absurd rfl h, subset_rfl⟩
  rw [if_neg hover]
  have htotal := calloc_total hover
  simp only [Nat.mod_eq_of_lt htotal]
  obtain ⟨heap, ptr, bs', hsome, hinv', hkeeps, hfresh, himpostors⟩ := heapInv_alloc hinv htotal
  rw [hsome, Option.map_some]
  by_cases hnull : ptr = 0
  · subst hnull
    exact ⟨heap, 0, bs', rfl, hinv', hkeeps, fun h => absurd rfl h, himpostors⟩
  refine ⟨{ heap with mem := kmemMemset heap.mem ptr 0 (count * bytes) }, ptr, bs',
    by simp [hnull], ?_, ?_, ?_, ?_⟩
  · rw [KmemRun.grant, if_neg hnull] at hinv' ⊢
    obtain ⟨a, b, hused, hptr, hle⟩ := hinv'.live.sound ptr (count * bytes) (by simp)
    refine heapInv_payload hinv' hused fun x hx => ?_
    rw [kmemMemset_eq_fill]
    exact fill_outside (by omega)
  · intro p n hlive hne x hlow hhigh
    rw [← hkeeps p n hlive hne x hlow hhigh, kmemMemset_eq_fill]
    have hother : p ≠ ptr := by
      rintro rfl
      exact hfresh hnull (List.mem_map_of_mem hlive)
    rw [KmemRun.grant, if_neg hnull] at hinv'
    have hapart := hinv'.live_disjoint (List.mem_cons_of_mem _ hlive)
      (List.mem_cons_self (a := (ptr, count * bytes))) hother
    exact fill_outside (by omega)
  · intro _ x hlow hhigh
    rw [kmemMemset_eq_fill]
    exact fill_inside hlow hhigh
  · rw [KmemRun.grant, if_neg hnull] at hinv'
    obtain ⟨a, b, hused, rfl, -⟩ := hinv'.live.sound ptr (count * bytes) (by simp)
    have haligned : a % 16 = 0 := by
      apply hinv'.layout.placed_aligned (b := b)
      rw [hinv'.base_eq]
      exact (mem_used.mp hused).1
    dsimp only
    rw [kmemMemset_eq_fill]
    refine (impostors_of_words ?_).trans himpostors
    exact fill_zero_words heap.mem (by omega) (count * bytes)

theorem HeapInv.ptr_pos (hinv : HeapInv heapBase heapEnd r bs) {p n : Nat}
    (hp : (p, n) ∈ r.live) : p ≠ 0 := by
  obtain ⟨a, b, -, rfl, -⟩ := hinv.live.sound p n hp
  omega

theorem liveMatches_free {pre post : List Block} {b : Block} {live : List (Nat × Nat)}
    (hlive : LiveMatches heapBase (pre ++ b :: post) live) :
    LiveMatches heapBase (freeBetween pre b post)
      (live.filter fun pn => decide (pn.1 ≠ heapBase + extent pre + 48)) := by
  refine ⟨?_, ?_, hlive.nodup.sublist (List.filter_sublist.map _)⟩
  · intro p n hmem
    obtain ⟨hmem, hne⟩ := List.mem_filter.mp hmem
    obtain ⟨a, c, hused, rfl, hle⟩ := hlive.sound p n hmem
    rw [decide_eq_true_eq] at hne
    exact ⟨a, c, mem_used_freeBetween.mpr ⟨hused, by omega⟩, rfl, hle⟩
  · intro a c hused
    obtain ⟨hused, hne⟩ := mem_used_freeBetween.mp hused
    obtain ⟨n, hn⟩ := hlive.complete a c hused
    refine ⟨n, List.mem_filter.mpr ⟨hn, ?_⟩⟩
    rw [decide_eq_true_eq]
    dsimp only
    omega

theorem filter_of_dead {live : List (Nat × Nat)} {q : Nat} (hdead : ∀ n, (q, n) ∉ live) :
    live.filter (fun pn => decide (pn.1 ≠ q)) = live := by
  rw [List.filter_eq_self]
  rintro ⟨p, n⟩ hp
  rw [decide_eq_true_eq]
  rintro rfl
  exact hdead n hp

theorem heapInv_free (hinv : HeapInv heapBase heapEnd r bs) {ptr : Nat}
    (hptr : ptr = 0 ∨ ∃ n, (ptr, n) ∈ r.live) :
    ∃ heap rc bs', kmemFreeChecked r.heap ptr = some (heap, rc) ∧
      HeapInv heapBase heapEnd
        ⟨heap, r.live.filter fun pn => decide (pn.1 ≠ ptr)⟩ bs' ∧
      KeepsLive r ptr heap.mem ∧
      impostors heapEnd heapBase bs' heap.mem ⊆ impostors heapEnd heapBase bs r.heap.mem := by
  by_cases hnull : ptr = 0
  · have hdead : ∀ n, (ptr, n) ∉ r.live := fun n hp => hinv.ptr_pos hp hnull
    refine ⟨r.heap, 0, bs, by simp [kmemFreeChecked, hnull], ?_, fun _ _ _ _ _ _ _ => rfl,
      subset_rfl⟩
    rw [filter_of_dead hdead]
    exact hinv
  · obtain ⟨n, hlive⟩ := hptr.resolve_left hnull
    obtain ⟨a, b, hused, rfl, -⟩ := hinv.live.sound ptr n hlive
    obtain ⟨hplaced, hb⟩ := mem_used.mp hused
    obtain ⟨pre, post, rfl, rfl⟩ := exists_split_of_placed hplaced
    obtain ⟨m', hcall, hlayout, hkeeps, himpostors⟩ := kmemFreeChecked_layout hinv.layout hb
    rw [hinv.base_eq, hinv.end_eq] at himpostors
    have haddr : r.heap.gHeapBase + extent pre + 48 = heapBase + extent pre + 48 := by
      rw [hinv.base_eq]
    rw [haddr] at hcall
    rw [hinv.base_eq] at hkeeps
    refine ⟨{ r.heap with mem := m' }, _, freeBetween pre b post, hcall,
      ⟨hinv.base_eq, hinv.end_eq, hlayout, noAdjacentFree_freeBetween hinv.merged, ?_⟩, ?_,
      himpostors⟩
    · exact liveMatches_free hinv.live
    · have hframe : OnlyHeaders heapBase (pre ++ b :: post) (freeBetween pre b post)
          r.heap.mem m' := fun x hbyte _ => hkeeps x hbyte
      refine keepsLive_of_onlyHeaders hinv hframe fun a c hmem hne => ?_
      exact mem_used_freeBetween.mpr ⟨hmem, by omega⟩

theorem heapInv_clientWrite (hinv : HeapInv heapBase heapEnd r bs) {addr : Nat}
    {value : UInt8} (hallowed : r.Allowed (.clientWrite addr value)) :
    HeapInv heapBase heapEnd
      ⟨{ r.heap with mem := writeLE r.heap.mem addr 1 value.toNat }, r.live⟩ bs := by
  obtain ⟨ptr, n, hlive, hlow, hhigh⟩ := hallowed
  obtain ⟨a, b, hused, rfl, -⟩ := hinv.live.sound ptr n hlive
  have hplaced := (mem_used.mp hused).1
  have hbounds := placed_bounds hplaced
  have htiles := hinv.layout.tiles
  have hend := hinv.layout.end_bound
  rw [hinv.base_eq] at htiles
  rw [← hinv.base_eq] at hplaced
  obtain ⟨p, hheader⟩ := hinv.layout.segment.header_of_placed hplaced
  rw [kmemHeaderFromPayload_eq (by omega), blockSize_eq, hheader] at hhigh
  simp only [blockHeader] at hhigh
  exact heapInv_payload hinv hused fun x hx => writeLE_outside (by omega)

/-- What any allowed call does: it returns, the invariant holds again, and the
allocations that the call does not free keep their bytes. -/
theorem heapInv_step (hinv : HeapInv heapBase heapEnd r bs) {call : KmemCall}
    (hallowed : r.Allowed call) :
    ∃ r' result bs', r.step call = some (r', result) ∧ HeapInv heapBase heapEnd r' bs' ∧
      ((∀ addr value, call ≠ .clientWrite addr value) →
        ∀ p n, (p, n) ∈ r.live → call ≠ .free p →
          ∀ a, p ≤ a → a < p + n → r'.heap.mem a = r.heap.mem a) := by
  cases call with
  | alloc bytes =>
      obtain ⟨heap, ptr, bs', hcall, hinv', hkeeps, -⟩ := heapInv_alloc hinv hallowed
      refine ⟨_, _, bs', by rw [KmemRun.step, hcall, Option.map_some, KmemRun.grant], hinv', ?_⟩
      intro _ p n hlive _
      exact hkeeps p n hlive (hinv.ptr_pos hlive)
  | calloc count bytes =>
      obtain ⟨heap, ptr, bs', hcall, hinv', hkeeps, -⟩ := heapInv_calloc hinv count bytes
      refine ⟨_, _, bs', by rw [KmemRun.step, hcall, Option.map_some, KmemRun.grant], hinv', ?_⟩
      intro _ p n hlive _
      exact hkeeps p n hlive (hinv.ptr_pos hlive)
  | free ptr =>
      obtain ⟨heap, rc, bs', hcall, hinv', hkeeps, -⟩ := heapInv_free hinv hallowed
      refine ⟨_, _, bs', by rw [KmemRun.step, hcall, Option.map_some], hinv', ?_⟩
      intro _ p n hlive hne
      exact hkeeps p n hlive fun heq => hne (by rw [heq])
  | clientWrite addr value =>
      refine ⟨_, _, bs, rfl, heapInv_clientWrite hinv hallowed, ?_⟩
      intro hnot
      exact absurd rfl (hnot addr value)

end Calls

theorem heapInv_run_of_part {s : KmemState} {base bytes : Nat} {r : KmemRun}
    {trace : List (KmemCall × KmemResult)}
    (hinit : (kmemInit s base bytes).2 = 0) (hbase : base < 2 ^ 64) (hbytes : bytes < 2 ^ 64)
    (hpart : PartOfSpace base bytes)
    (hrun : Run kmemSystem (startRun s base bytes) trace r) :
    ∃ bs, HeapInv (startRun s base bytes).heap.gHeapBase
      (startRun s base bytes).heap.gHeapEnd r bs := by
  obtain ⟨size, hstart⟩ := heapInv_startRun hinit hbase hbytes hpart
  refine hrun.invariant
    (fun r => ∃ bs, HeapInv (startRun s base bytes).heap.gHeapBase
      (startRun s base bytes).heap.gHeapEnd r bs) ?_ ⟨_, hstart⟩
  rintro r call r' result ⟨bs, hinv⟩ hallowed hstep
  obtain ⟨r'', result', bs', hstep', hinv', -⟩ := heapInv_step hinv hallowed
  cases hstep.symm.trans hstep'
  exact ⟨bs', hinv'⟩

theorem heapInv_run {s : KmemState} {base bytes : Nat} {r : KmemRun}
    {trace : List (KmemCall × KmemResult)}
    (hinit : (kmemInit s base bytes).2 = 0) (hend : base + bytes ≤ 2 ^ 64 - 4096)
    (hrun : Run kmemSystem (startRun s base bytes) trace r) :
    ∃ bs, HeapInv (startRun s base bytes).heap.gHeapBase
      (startRun s base bytes).heap.gHeapEnd r bs :=
  heapInv_run_of_part hinit (by omega) (by omega) (.inr (by omega)) hrun

end Mcsos.KmemRuns

import Mcsos.KmemMerge

namespace Mcsos.KmemOperations

open Mcsos.ByteMemory
open Mcsos.KmemModel
open Mcsos.KmemHeaders
open Mcsos.KmemBlocks
open Mcsos.KmemSegments
open Mcsos.KmemSplit
open Mcsos.KmemMerge

/-- A block that can serve a request of `wanted` bytes. -/
def Fits (wanted : Nat) (b : Block) : Prop := b.free = true ∧ wanted ≤ b.size

theorem length_le_extent (bs : List Block) : 48 * bs.length ≤ extent bs := by
  induction bs with
  | nil => simp
  | cons b bs ih =>
      rw [List.length_cons, extent_cons]
      omega

theorem Layout.length_lt_fuel {s : KmemState} {bs : List Block} (h : Layout s bs) :
    bs.length < pointerFuel := by
  have hlength := length_le_extent bs
  have htiles := h.tiles
  have hend := h.end_bound
  rw [pointerFuel]
  omega

theorem kmemAllocLoop_layout {s : KmemState} (pre : List Block) {bs : List Block}
    (wanted : Nat) {fuel : Nat}
    (h : Layout s (pre ++ bs)) (hfuel : bs.length < fuel)
    (hbefore : ∀ c ∈ pre, ¬Fits wanted c) :
    (kmemAllocLoop s wanted fuel (nextPtr s.gHeapEnd (s.gHeapBase + extent pre)) = some (s, 0) ∧
        ∀ c ∈ pre ++ bs, ¬Fits wanted c) ∨
      ∃ first b post, pre ++ bs = first ++ b :: post ∧ Fits wanted b ∧
        (∀ c ∈ first, ¬Fits wanted c) ∧
        kmemAllocLoop s wanted fuel (nextPtr s.gHeapEnd (s.gHeapBase + extent pre)) =
          some (serve s (s.gHeapBase + extent first) wanted,
            s.gHeapBase + extent first + 48) := by
  induction bs generalizing pre fuel with
  | nil =>
      obtain ⟨fuel, rfl⟩ : ∃ k, fuel = k + 1 := ⟨fuel - 1, by omega⟩
      have htiles := h.tiles
      rw [List.append_nil] at htiles
      refine .inl ⟨?_, by simpa using hbefore⟩
      rw [nextPtr, if_pos htiles, kmemAllocLoop, if_pos rfl]
  | cons b bs ih =>
      obtain ⟨fuel, rfl⟩ : ∃ k, fuel = k + 1 := ⟨fuel - 1, by omega⟩
      rw [List.length_cons] at hfuel
      obtain ⟨-, -, htiles, hheader⟩ := h.at_middle
      have hbase := h.base_pos
      have hend := h.end_bound
      have hcur : nextPtr s.gHeapEnd (s.gHeapBase + extent pre) = s.gHeapBase + extent pre :=
        if_neg (by omega)
      have hpayload : kmemPayload (s.gHeapBase + extent pre) = s.gHeapBase + extent pre + 48 :=
        kmemPayload_eq (by omega)
      rw [hcur, kmemAllocLoop, if_neg (by omega), blockMagic_eq, blockFree_eq, blockSize_eq,
        blockNext_eq, hheader, if_neg (by simp [blockHeader])]
      by_cases hfits : Fits wanted b
      · refine .inr ⟨pre, b, bs, rfl, hfits, hbefore, ?_⟩
        rw [if_pos (by simpa [blockHeader, Fits] using hfits), hpayload]
        rfl
      · rw [if_neg (by simpa [blockHeader, Fits] using hfits)]
        have h' : Layout s (pre ++ [b] ++ bs) := by simpa using h
        have hbefore' : ∀ c ∈ pre ++ [b], ¬Fits wanted c := by
          intro c hc
          rcases List.mem_append.mp hc with hc | hc
          · exact hbefore c hc
          · rw [List.mem_singleton.mp hc]
            exact hfits
        have haddr : s.gHeapBase + extent (pre ++ [b]) =
            s.gHeapBase + extent pre + 48 + b.size := by
          simp only [extent_append, extent_cons, extent_nil]
          omega
        have hstep := ih (pre ++ [b]) h' (by omega : bs.length < fuel) hbefore'
        rw [haddr] at hstep
        simpa [blockHeader] using hstep

theorem kmemAlignUpSize_spec {bytes : Nat} (hbytes : bytes < 2 ^ 64)
    (hne : kmemAlignUpSize bytes kmemAlign ≠ 0) :
    bytes ≤ kmemAlignUpSize bytes kmemAlign ∧ kmemAlignUpSize bytes kmemAlign % 16 = 0 := by
  rw [kmemAlignUpSize_align] at *
  omega

/-- What a successful allocation of `bytes` does to the heap. -/
structure Serves (s : KmemState) (bs : List Block) (bytes : Nat) (s' : KmemState)
    (bs' : List Block) (ptr : Nat) (pre post : List Block) (b : Block) : Prop where
  found : bs = pre ++ b :: post
  fits : Fits (kmemAlignUpSize bytes kmemAlign) b
  first : ∀ c ∈ pre, ¬Fits (kmemAlignUpSize bytes kmemAlign) c
  enough : bytes ≤ kmemAlignUpSize bytes kmemAlign
  carved : bs' = pre ++ carve b (kmemAlignUpSize bytes kmemAlign) ++ post
  pointer : ptr = s.gHeapBase + extent pre + 48
  layout : Layout s' bs'
  base_eq : s'.gHeapBase = s.gHeapBase
  end_eq : s'.gHeapEnd = s.gHeapEnd
  frame : OnlyHeaders s.gHeapBase bs bs' s.mem s'.mem

theorem Layout.eq_of_region {s s' : KmemState} {bs bs' : List Block} (h : Layout s bs)
    (h' : Layout s' bs') (hbase : s'.gHeapBase = s.gHeapBase) (hend : s'.gHeapEnd = s.gHeapEnd) :
    s' = { s with mem := s'.mem } := by
  have hhead : s'.gHead = s.gHead := by rw [h.head, h'.head, hbase]
  have hready : s'.gInitialized = s.gInitialized := by rw [h.initialized, h'.initialized]
  rw [← hbase, ← hend, ← hhead, ← hready]

theorem placed_carve {cur a : Nat} {pre post : List Block} {b c : Block} (wanted : Nat)
    (hmem : (a, c) ∈ placed cur (pre ++ b :: post)) :
    ∃ d, (a, d) ∈ placed cur (pre ++ carve b wanted ++ post) := by
  have hextent := extent_carve b wanted
  rw [placed_append, placed_cons, List.mem_append, List.mem_cons] at hmem
  rw [List.append_assoc, placed_append, placed_append, hextent, ← Nat.add_assoc]
  rcases hmem with hmem | hmem | hmem
  · exact ⟨c, List.mem_append_left _ hmem⟩
  · cases hmem
    unfold carve
    split
    · exact ⟨_, List.mem_append_right _ (List.mem_append_left _ List.mem_cons_self)⟩
    · exact ⟨_, List.mem_append_right _ (List.mem_append_left _ List.mem_cons_self)⟩
  · exact ⟨c, List.mem_append_right _ (List.mem_append_right _ hmem)⟩

theorem Serves.impostors_subset {s s' : KmemState} {bs bs' pre post : List Block} {b : Block}
    {bytes ptr : Nat} (h : Serves s bs bytes s' bs' ptr pre post b) (hlayout : Layout s bs) :
    impostors s.gHeapEnd s.gHeapBase bs' s'.mem ⊆
      impostors s.gHeapEnd s.gHeapBase bs s.mem := by
  obtain ⟨rfl, -, -, -, rfl, -, hlayout', hbase, hend, hframe⟩ := h
  rw [Layout.eq_of_region hlayout hlayout' hbase hend] at hlayout'
  exact impostors_of_frame hlayout hlayout' hframe fun k c hmem => .inl (placed_carve _ hmem)

theorem kmemAlloc_layout {s : KmemState} {bs : List Block} {bytes : Nat}
    (h : Layout s bs) (hbytes : bytes < 2 ^ 64) :
    (kmemAlloc s bytes = some (s, 0) ∧
        (bytes = 0 ∨ kmemAlignUpSize bytes kmemAlign = 0 ∨
          ∀ c ∈ bs, ¬Fits (kmemAlignUpSize bytes kmemAlign) c)) ∨
      ∃ s' bs' ptr pre post b, kmemAlloc s bytes = some (s', ptr) ∧
        Serves s bs bytes s' bs' ptr pre post b := by
  unfold kmemAlloc
  by_cases hzero : bytes = 0
  · exact .inl ⟨by simp [hzero], .inl hzero⟩
  rw [if_neg (by simp [h.initialized, hzero])]
  by_cases hwrap : kmemAlignUpSize bytes kmemAlign = 0
  · exact .inl ⟨by simp [hwrap], .inr (.inl hwrap)⟩
  obtain ⟨henough, haligned⟩ := kmemAlignUpSize_spec hbytes hwrap
  have hhead : nextPtr s.gHeapEnd (s.gHeapBase + extent []) = s.gHead := by
    have htiles := h.tiles
    have hpos := extent_pos h.nonempty
    rw [h.head, extent_nil, Nat.add_zero]
    exact if_neg (by omega)
  have hloop := kmemAllocLoop_layout [] (kmemAlignUpSize bytes kmemAlign)
    (by simpa using h) (Layout.length_lt_fuel h) (by simp)
  rw [hhead] at hloop
  rcases hloop with ⟨hnone, hfull⟩ | ⟨pre, b, post, heq, hfits, hfirst, hsome⟩
  · exact .inl ⟨by simpa [hwrap] using hnone, .inr (.inr (by simpa using hfull))⟩
  · rw [List.nil_append] at heq
    subst heq
    have hserve : ∃ m', serve s (s.gHeapBase + extent pre) (kmemAlignUpSize bytes kmemAlign) =
          { s with mem := m' } ∧
        Layout { s with mem := m' }
          (pre ++ carve b (kmemAlignUpSize bytes kmemAlign) ++ post) ∧
        OnlyHeaders s.gHeapBase (pre ++ b :: post)
          (pre ++ carve b (kmemAlignUpSize bytes kmemAlign) ++ post) s.mem m' := by
      by_cases hsmall : b.size ≤ kmemAlignUpSize bytes kmemAlign + 80
      · exact serve_of_small h hfits.2 haligned hsmall
      · exact serve_of_large h haligned (by omega) (by omega)
    obtain ⟨m', heq, hlayout, hframe⟩ := hserve
    refine .inr ⟨{ s with mem := m' }, _, _, pre, post, b, ?_,
      ⟨rfl, hfits, hfirst, henough, rfl, rfl, hlayout, rfl, rfl, hframe⟩⟩
    rw [if_neg hwrap, hsome, heq]

theorem kmemCoalesceForward_layout {s : KmemState} {pre post : List Block} {b : Block}
    (h : Layout s (pre ++ b :: post)) :
    ∃ m', kmemCoalesceForward s (s.gHeapBase + extent pre) = some { s with mem := m' } ∧
      Layout { s with mem := m' } (pre ++ mergeForward b post) ∧
      KeepsPayloads s.gHeapBase (pre ++ b :: post) s.mem m' ∧
      impostors s.gHeapEnd s.gHeapBase (pre ++ mergeForward b post) m' ⊆
        impostors s.gHeapEnd s.gHeapBase (pre ++ b :: post) s.mem := by
  have hfuel := Layout.length_lt_fuel h
  rw [List.length_append, List.length_cons] at hfuel
  obtain ⟨m', hloop, hlayout, hkeeps⟩ :=
    kmemCoalesceLoop_layout h (by omega : post.length < pointerFuel)
  exact ⟨m', by rw [kmemCoalesceForward, hloop]; rfl, hlayout, hkeeps⟩

theorem placed_setFree {cur a : Nat} {pre post : List Block} {b c : Block} (free : Bool)
    (hmem : (a, c) ∈ placed cur (pre ++ b :: post)) :
    ∃ d, (a, d) ∈ placed cur (pre ++ { b with free := free } :: post) := by
  rw [placed_append, placed_cons, List.mem_append, List.mem_cons] at hmem
  rw [placed_append, placed_cons]
  rcases hmem with hmem | hmem | hmem
  · exact ⟨c, List.mem_append_left _ hmem⟩
  · cases hmem
    exact ⟨_, List.mem_append_right _ List.mem_cons_self⟩
  · exact ⟨c, List.mem_append_right _ (List.mem_cons_of_mem _ hmem)⟩

theorem layout_storeFree {s : KmemState} {pre post : List Block} {b : Block}
    (h : Layout s (pre ++ b :: post)) :
    Layout { s with mem := storeFree s.mem (s.gHeapBase + extent pre) 1 }
      (pre ++ { b with free := true } :: post) := by
  obtain ⟨-, hsize, htiles, hheader⟩ := h.at_middle
  have hsegment := h.segment
  rw [segment_append] at hsegment
  have hout := storeFree_onlyHeader s.mem (s.gHeapBase + extent pre) 1
  have h' : Layout s (pre ++ [b] ++ post) := by simpa using h
  have hafter : s.gHeapBase + extent pre + extent [b] =
      s.gHeapBase + extent pre + 48 + b.size := by
    simp only [extent_cons, extent_nil]
    omega
  have hcons : pre ++ { b with free := true } :: post =
      pre ++ [{ b with free := true }] ++ post := by simp
  rw [hcons]
  refine h'.replace (by simp) hafter (by simpa using hsize) (by simp) ?_ ?_ ?_
  · exact hsegment.1.frame fun a hlow hhigh => hout a (by omega)
  · refine ⟨?_, trivial⟩
    rw [header_storeFree, hheader]
    rfl
  · rw [lastAddr_concat]
    exact hsegment.2.2.frame fun a hlow hhigh => hout a (by omega)

theorem impostors_storeFree {s : KmemState} {pre post : List Block} {b : Block}
    (h : Layout s (pre ++ b :: post)) :
    impostors s.gHeapEnd s.gHeapBase (pre ++ { b with free := true } :: post)
        (storeFree s.mem (s.gHeapBase + extent pre) 1) ⊆
      impostors s.gHeapEnd s.gHeapBase (pre ++ b :: post) s.mem := by
  have hmarked := layout_storeFree h
  apply impostors_of_frame h hmarked
  · intro a hbyte _
    apply storeFree_onlyHeader
    by_contra hin
    exact hbyte ⟨_, b, mem_placed_middle _ _ _ _, by omega, by omega⟩
  · exact fun k c hmem => .inl (placed_setFree true hmem)

theorem headerByte_mergeForward {cur a : Nat} {pre post : List Block} {b : Block}
    (h : HeaderByte cur (pre ++ mergeForward b post) a) :
    HeaderByte cur (pre ++ b :: post) a := by
  induction post generalizing b with
  | nil => exact h
  | cons c post ih =>
      rw [mergeForward] at h
      split at h
      · exact headerByte_of_merged rfl _ (ih h)
      · exact h

theorem headerByte_setFree {cur a : Nat} {pre post : List Block} {b : Block} (free : Bool)
    (h : HeaderByte cur (pre ++ { b with free := free } :: post) a) :
    HeaderByte cur (pre ++ b :: post) a := by
  obtain ⟨k, d, hmem, hlow, hhigh⟩ := h
  rw [placed_append, placed_cons, List.mem_append, List.mem_cons] at hmem
  rcases hmem with hmem | hmem | hmem
  · exact ⟨k, d, by simp [placed_append, hmem], hlow, hhigh⟩
  · cases hmem
    exact ⟨_, b, mem_placed_middle _ _ _ _, hlow, hhigh⟩
  · exact ⟨k, d, by simp [placed_append, hmem], hlow, hhigh⟩

theorem coalesce_prev_layout {s : KmemState} {pre post : List Block} {b : Block}
    {mid : List Block} (hmid : mid = mergeForward { b with free := true } post)
    (h : Layout s (pre ++ mid)) :
    ∃ m', (if blockPrev s.mem (s.gHeapBase + extent pre) ≠ 0 ∧
          blockFree s.mem (blockPrev s.mem (s.gHeapBase + extent pre)) ≠ 0 then
          kmemCoalesceForward s (blockPrev s.mem (s.gHeapBase + extent pre))
        else some s) = some { s with mem := m' } ∧
      Layout { s with mem := m' } (freeBetween pre b post) ∧
      KeepsPayloads s.gHeapBase (pre ++ mid) s.mem m' ∧
      impostors s.gHeapEnd s.gHeapBase (freeBetween pre b post) m' ⊆
        impostors s.gHeapEnd s.gHeapBase (pre ++ mid) s.mem := by
  obtain ⟨size, rest, heq, -, -⟩ := mergeForward_eq_cons { b with free := true } post
  rw [← hmid] at heq
  have hprev : blockPrev s.mem (s.gHeapBase + extent pre) = lastAddr 0 s.gHeapBase pre := by
    rw [heq] at h
    obtain ⟨-, -, -, hheader⟩ := h.at_middle
    rw [blockPrev_eq, hheader]
    rfl
  rcases List.eq_nil_or_concat pre with rfl | ⟨pre, p, rfl⟩
  · rw [freeBetween_nil, ← hmid]
    refine ⟨s.mem, ?_, by simpa using h, fun a _ => rfl, subset_rfl⟩
    rw [hprev, if_neg (by simp [lastAddr])]
  · rw [List.concat_eq_append] at *
    rw [lastAddr_concat] at hprev
    have h' : Layout s (pre ++ p :: mid) := by simpa using h
    obtain ⟨-, -, -, hheader⟩ := h'.at_middle
    have hbase := h.base_pos
    have hfree : blockFree s.mem (s.gHeapBase + extent pre) = p.free.toNat := by
      rw [blockFree_eq, hheader]
      rfl
    rw [hprev, hfree, freeBetween_concat, ← hmid]
    by_cases hp : p.free = true
    · rw [if_pos (by simp [hp]; omega), if_pos hp]
      obtain ⟨m', hcall, hlayout, hkeeps, himpostors⟩ := kmemCoalesceForward_layout h'
      exact ⟨m', hcall, hlayout, by simpa using hkeeps, by simpa using himpostors⟩
    · rw [if_neg (by simp [hp]), if_neg hp]
      exact ⟨s.mem, rfl, h', fun a _ => rfl, by simp⟩

theorem kmemFreeChecked_layout {s : KmemState} {pre post : List Block} {b : Block}
    (h : Layout s (pre ++ b :: post)) (hused : b.free = false) :
    ∃ m', kmemFreeChecked s (s.gHeapBase + extent pre + 48) =
        some ({ s with mem := m' }, kmemValidate { s with mem := m' }) ∧
      Layout { s with mem := m' } (freeBetween pre b post) ∧
      KeepsPayloads s.gHeapBase (pre ++ b :: post) s.mem m' ∧
      impostors s.gHeapEnd s.gHeapBase (freeBetween pre b post) m' ⊆
        impostors s.gHeapEnd s.gHeapBase (pre ++ b :: post) s.mem := by
  obtain ⟨haligned, hsize, htiles, hheader⟩ := h.at_middle
  have hbase := h.base_pos
  have hend := h.end_bound
  have hptr : kmemPtrInHeap s (s.gHeapBase + extent pre + 48) = true := by
    simp only [kmemPtrInHeap, Bool.and_eq_true, decide_eq_true_eq]
    omega
  have hmask : s.gHeapBase + extent pre + 48 &&& kmemAlign - 1 = 0 := by
    rw [and_kmemAlign]
    omega
  have hblock : kmemHeaderFromPayload (s.gHeapBase + extent pre + 48) =
      s.gHeapBase + extent pre := kmemHeaderFromPayload_eq (by omega)
  have hinHeap : kmemPtrInHeap s (s.gHeapBase + extent pre) = true := by
    simp only [kmemPtrInHeap, Bool.and_eq_true, decide_eq_true_eq]
    omega
  obtain ⟨m₁, hforward, hlayout, hkeeps, himpostors⟩ :=
    kmemCoalesceForward_layout (layout_storeFree h)
  obtain ⟨m₂, hbackward, hlayout', hkeeps', himpostors'⟩ := coalesce_prev_layout rfl hlayout
  have hmarked := impostors_storeFree h
  refine ⟨m₂, ?_, hlayout', ?_, himpostors'.trans (himpostors.trans hmarked)⟩
  · rw [kmemFreeChecked, if_neg (by omega), if_neg (by simp [hptr]), if_neg (by simp [hmask])]
    simp only [hblock, blockMagic_eq, blockFree_eq, hheader]
    rw [if_neg (by simp [hinHeap, blockHeader]), if_neg (by simp [blockHeader, hused])]
    rw [hforward, Option.bind_some]
    exact congrArg (Option.bind · fun s => some (s, kmemValidate s)) hbackward
  · intro a hbyte
    have hmarked : ¬HeaderByte s.gHeapBase (pre ++ { b with free := true } :: post) a :=
      fun hmarked => hbyte (headerByte_setFree true hmarked)
    have hsecond : m₂ a = m₁ a :=
      hkeeps' a fun hmerged => hmarked (headerByte_mergeForward hmerged)
    have hfirst : m₁ a = storeFree s.mem (s.gHeapBase + extent pre) 1 a := hkeeps a hmarked
    rw [hsecond, hfirst]
    apply storeFree_onlyHeader
    by_contra hin
    exact hbyte ⟨_, b, mem_placed_middle _ _ _ _, by omega, by omega⟩

end Mcsos.KmemOperations

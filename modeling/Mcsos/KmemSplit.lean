import Mcsos.KmemSegments

namespace Mcsos.KmemSplit

open Mcsos.ByteMemory
open Mcsos.KmemModel
open Mcsos.KmemHeaders
open Mcsos.KmemBlocks
open Mcsos.KmemSegments

/-- The six stores that make a fresh free block. -/
def freshHeader (m : ByteMem) (block size prev next : Nat) : ByteMem :=
  storeNext (storePrev (storePad (storeFree (storeSize (storeMagic m block kmemMagic)
    block size) block 1) block 0) block prev) block next

theorem header_freshHeader (m : ByteMem) (block size prev next : Nat) :
    header (freshHeader m block size prev next) block =
      ⟨kmemMagic, size % 2 ^ 64, 1, prev % 2 ^ 64, next % 2 ^ 64⟩ := by
  rw [freshHeader, header_storeNext, header_storePrev, header_storePad, header_storeFree,
    header_storeSize, header_storeMagic]
  rfl

theorem freshHeader_onlyHeader (m : ByteMem) (block size prev next : Nat) :
    OnlyHeader block m (freshHeader m block size prev next) :=
  (((((storeMagic_onlyHeader _ _ _).trans (storeSize_onlyHeader _ _ _)).trans
    (storeFree_onlyHeader _ _ _)).trans (storePad_onlyHeader _ _ _)).trans
    (storePrev_onlyHeader _ _ _)).trans (storeNext_onlyHeader _ _ _)

/-- `if (next) next->prev = value`. -/
def linkPrev (m : ByteMem) (next value : Nat) : ByteMem :=
  if next ≠ 0 then storePrev m next value else m

theorem linkPrev_outside {m : ByteMem} {next value a : Nat}
    (h : next = 0 ∨ a < next ∨ next + 48 ≤ a) : linkPrev m next value a = m a := by
  unfold linkPrev
  split
  · exact storePrev_onlyHeader m next value a (by omega)
  · rfl

theorem header_linkPrev_apart {m : ByteMem} {next value other : Nat}
    (h : next = 0 ∨ next + 48 ≤ other ∨ other + 48 ≤ next) :
    header (linkPrev m next value) other = header m other :=
  header_congr fun a hlow hhigh => linkPrev_outside (by omega)

theorem header_linkPrev {m : ByteMem} {next value : Nat} (h : next ≠ 0) :
    header (linkPrev m next value) next =
      { header m next with prev := value % 2 ^ 64 } := by
  rw [linkPrev, if_pos h, header_storePrev]

/-- The memory after a split of the block at `block`, of `size` bytes. -/
def splitMem (m : ByteMem) (block wanted size next : Nat) : ByteMem :=
  storeSize (storeNext (linkPrev
    (freshHeader m (block + 48 + wanted) (size - wanted - 48) block next)
      next (block + 48 + wanted)) block (block + 48 + wanted)) block wanted

section SplitMem

variable {m : ByteMem} {block wanted size next : Nat}

theorem splitMem_outside {a : Nat} (hblock : a < block ∨ block + 48 ≤ a)
    (hnew : a < block + 48 + wanted ∨ block + 48 + wanted + 48 ≤ a)
    (hnext : next = 0 ∨ a < next ∨ next + 48 ≤ a) :
    splitMem m block wanted size next a = m a := by
  rw [splitMem, storeSize_onlyHeader _ _ _ a hblock, storeNext_onlyHeader _ _ _ a hblock,
    linkPrev_outside hnext, freshHeader_onlyHeader _ _ _ _ _ a hnew]

theorem header_splitMem_block (hnext : next = 0 ∨ block + 48 ≤ next) :
    header (splitMem m block wanted size next) block =
      { header m block with
        size := wanted % 2 ^ 64
        next := (block + 48 + wanted) % 2 ^ 64 } := by
  have hfresh : header (freshHeader m (block + 48 + wanted) (size - wanted - 48) block next)
      block = header m block :=
    (freshHeader_onlyHeader _ _ _ _ _).header_apart (by omega)
  rw [splitMem, header_storeSize, header_storeNext, header_linkPrev_apart (by omega), hfresh]

theorem header_splitMem_new (hnext : next = 0 ∨ block + 48 + wanted + 48 ≤ next) :
    header (splitMem m block wanted size next) (block + 48 + wanted) =
      ⟨kmemMagic, (size - wanted - 48) % 2 ^ 64, 1, block % 2 ^ 64, next % 2 ^ 64⟩ := by
  rw [splitMem, header_storeSize_apart (by omega), header_storeNext_apart (by omega),
    header_linkPrev_apart (by omega), header_freshHeader]

theorem header_splitMem_next (hne : next ≠ 0) (hnext : block + 48 + wanted + 48 ≤ next) :
    header (splitMem m block wanted size next) next =
      { header m next with prev := (block + 48 + wanted) % 2 ^ 64 } := by
  have hfresh : header (freshHeader m (block + 48 + wanted) (size - wanted - 48) block next)
      next = header m next :=
    (freshHeader_onlyHeader _ _ _ _ _).header_apart (by omega)
  rw [splitMem, header_storeSize_apart (by omega), header_storeNext_apart (by omega),
    header_linkPrev hne, hfresh]

end SplitMem

section Split

variable {s : KmemState} {pre post : List Block} {b : Block} {wanted : Nat}

theorem kmemSplitIfUseful_of_small (h : Layout s (pre ++ b :: post))
    (hwanted : wanted ≤ b.size) (haligned : wanted % 16 = 0)
    (hsmall : b.size ≤ wanted + 80) :
    kmemSplitIfUseful s (s.gHeapBase + extent pre) wanted = s := by
  obtain ⟨hblock, hsize, htiles, hheader⟩ := h.at_middle
  have hend := h.end_bound
  have hspan := h.span
  have hpayload : kmemPayload (s.gHeapBase + extent pre) = s.gHeapBase + extent pre + 48 :=
    kmemPayload_eq (by omega)
  have hconsumed : (s.gHeapBase + extent pre + 48 + wanted + 2 ^ 64 -
      (s.gHeapBase + extent pre + 48)) % 2 ^ 64 = wanted := by omega
  have hnew : kmemAlignUpPtr ((s.gHeapBase + extent pre + 48 + wanted) % 2 ^ 64) kmemAlign =
      s.gHeapBase + extent pre + 48 + wanted := by
    rw [Nat.mod_eq_of_lt (by omega)]
    exact kmemAlignUpPtr_of_aligned (by omega) (by omega)
  simp only [kmemSplitIfUseful, hpayload, hnew, blockSize_eq, hheader, blockHeader,
    sizeofKmemBlock, kmemMinSplit, hconsumed]
  split
  · rfl
  · rw [if_pos (by omega)]

theorem kmemSplitIfUseful_of_large (h : Layout s (pre ++ b :: post))
    (haligned : wanted % 16 = 0) (hlarge : wanted + 80 < b.size) :
    kmemSplitIfUseful s (s.gHeapBase + extent pre) wanted =
      { s with
        mem := splitMem s.mem (s.gHeapBase + extent pre) wanted b.size
          (nextPtr s.gHeapEnd (s.gHeapBase + extent pre + 48 + b.size)) } := by
  obtain ⟨hblock, hsize, htiles, hheader⟩ := h.at_middle
  have hend := h.end_bound
  generalize hA : s.gHeapBase + extent pre = A at *
  have hpayload : kmemPayload A = A + 48 := kmemPayload_eq (by omega)
  have hnew : kmemAlignUpPtr ((A + 48 + wanted) % 2 ^ 64) kmemAlign = A + 48 + wanted := by
    rw [Nat.mod_eq_of_lt (by omega)]
    exact kmemAlignUpPtr_of_aligned (by omega) (by omega)
  have hsplit : ¬s.gHeapEnd ≤ (A + 48 + wanted + 48) % 2 ^ 64 := by omega
  have hconsumed : (A + 48 + wanted + 2 ^ 64 - (A + 48)) % 2 ^ 64 = wanted := by omega
  have hworth : ¬b.size ≤ (wanted + 48 + 32) % 2 ^ 64 := by omega
  have hrest : (b.size + 2 ^ 64 - wanted + 2 ^ 64 - 48) % 2 ^ 64 = b.size - wanted - 48 := by
    omega
  simp (disch := omega) only [kmemSplitIfUseful, hpayload, hnew, blockSize_eq, blockNext_eq,
    header_storeMagic_apart, header_storeSize_apart, header_storeFree_apart,
    header_storePad_apart, header_storePrev_apart, header_storeNext_apart, hheader,
    blockHeader, sizeofKmemBlock, kmemMinSplit, hconsumed, hrest, if_neg hsplit,
    if_neg hworth]
  rfl

/-- The state after a split (or its refusal) and the store that marks the block
as used. -/
def serve (s : KmemState) (block wanted : Nat) : KmemState :=
  { kmemSplitIfUseful s block wanted with
    mem := storeFree (kmemSplitIfUseful s block wanted).mem block 0 }

theorem serve_of_small (h : Layout s (pre ++ b :: post))
    (hwanted : wanted ≤ b.size) (haligned : wanted % 16 = 0)
    (hsmall : b.size ≤ wanted + 80) :
    ∃ m', serve s (s.gHeapBase + extent pre) wanted = { s with mem := m' } ∧
      Layout { s with mem := m' } (pre ++ carve b wanted ++ post) ∧
      OnlyHeaders s.gHeapBase (pre ++ b :: post) (pre ++ carve b wanted ++ post) s.mem m' := by
  obtain ⟨hblock, hsize, htiles, hheader⟩ := h.at_middle
  have hbase := h.base_pos
  have hcarve : carve b wanted = [⟨b.size, false⟩] := if_pos hsmall
  have hsegment := h.segment
  rw [segment_append] at hsegment
  have hout := storeFree_onlyHeader s.mem (s.gHeapBase + extent pre) 0
  refine ⟨storeFree s.mem (s.gHeapBase + extent pre) 0, ?_, ?_, ?_⟩
  · rw [serve, kmemSplitIfUseful_of_small h hwanted haligned hsmall]
  · rw [hcarve]
    have h' : Layout s (pre ++ [b] ++ post) := by simpa using h
    have hafter : s.gHeapBase + extent pre + extent [b] =
        s.gHeapBase + extent pre + 48 + b.size := by
      simp only [extent_cons, extent_nil]
      omega
    refine h'.replace (by simp) hafter (by simpa using hsize) (by simp) ?_ ?_ ?_
    · exact hsegment.1.frame fun a hlow hhigh => hout a (by omega)
    · refine ⟨?_, trivial⟩
      rw [header_storeFree, hheader]
      rfl
    · rw [lastAddr_concat]
      exact hsegment.2.2.frame fun a hlow hhigh => hout a (by omega)
  · intro a hold _
    apply hout
    by_contra hin
    exact hold ⟨_, b, mem_placed_middle _ _ _ _, by omega, by omega⟩

/-- The memory after a split of the block behind `pre` that is then marked as used. -/
def carvedMem (s : KmemState) (pre : List Block) (b : Block) (wanted : Nat) : ByteMem :=
  storeFree (splitMem s.mem (s.gHeapBase + extent pre) wanted b.size
    (nextPtr s.gHeapEnd (s.gHeapBase + extent pre + 48 + b.size))) (s.gHeapBase + extent pre) 0

theorem nextPtr_after (h : Layout s (pre ++ b :: post)) :
    nextPtr s.gHeapEnd (s.gHeapBase + extent pre + 48 + b.size) = 0 ∨
      nextPtr s.gHeapEnd (s.gHeapBase + extent pre + 48 + b.size) =
        s.gHeapBase + extent pre + 48 + b.size ∧ post ≠ [] := by
  obtain ⟨-, -, htiles, -⟩ := h.at_middle
  unfold nextPtr
  split
  · exact .inl rfl
  · refine .inr ⟨rfl, ?_⟩
    rintro rfl
    simp only [extent_nil] at htiles
    omega

theorem carve_of_large (hlarge : wanted + 80 < b.size) :
    carve b wanted = [⟨wanted, false⟩, ⟨b.size - wanted - 48, true⟩] :=
  if_neg (by omega)

theorem layout_carvedMem (h : Layout s (pre ++ b :: post)) (haligned : wanted % 16 = 0)
    (hpos : 0 < wanted) (hlarge : wanted + 80 < b.size) :
    Layout { s with mem := carvedMem s pre b wanted } (pre ++ carve b wanted ++ post) := by
  obtain ⟨hblock, hsize, htiles, hheader⟩ := h.at_middle
  have hbase := h.base_pos
  have hend := h.end_bound
  have hsegment := h.segment
  rw [segment_append] at hsegment
  have hlast := nextPtr_after h
  have hinner : nextPtr s.gHeapEnd (s.gHeapBase + extent pre + 48 + wanted) =
      s.gHeapBase + extent pre + 48 + wanted := if_neg (by omega)
  rw [carve_of_large hlarge]
  have h' : Layout s (pre ++ [b] ++ post) := by simpa using h
  have hafter : s.gHeapBase + extent pre + extent [b] =
      s.gHeapBase + extent pre + 48 + b.size := by
    simp only [extent_cons, extent_nil]
    omega
  refine h'.replace ?_ hafter ?_ (by simp) ?_ ?_ ?_
  · simp only [extent_cons, extent_nil]
    omega
  · simp only [List.mem_cons, List.not_mem_nil, or_false, forall_eq_or_imp, forall_eq]
    omega
  · refine hsegment.1.frame fun a hlow hhigh => ?_
    rw [carvedMem, storeFree_onlyHeader _ _ _ a (by omega),
      splitMem_outside (by omega) (by omega) (by omega)]
  · refine ⟨?_, ?_, trivial⟩
    · rw [carvedMem, header_storeFree, header_splitMem_block (by omega), hheader]
      simp only [blockHeader, hinner, Header.mk.injEq, true_and]
      refine ⟨?_, rfl, ?_⟩ <;> omega
    · rw [carvedMem, header_storeFree_apart (by omega), header_splitMem_new (by omega)]
      simp only [blockHeader, Header.mk.injEq, true_and, Bool.toNat_true]
      refine ⟨by omega, by omega, ?_⟩
      have haddr : s.gHeapBase + extent pre + 48 + wanted + 48 + (b.size - wanted - 48) =
          s.gHeapBase + extent pre + 48 + b.size := by omega
      rw [haddr]
      omega
  · have hprev : lastAddr 0 s.gHeapBase
        (pre ++ [⟨wanted, false⟩, ⟨b.size - wanted - 48, true⟩]) =
        s.gHeapBase + extent pre + 48 + wanted := by
      rw [show pre ++ [⟨wanted, false⟩, ⟨b.size - wanted - 48, true⟩] =
        (pre ++ [⟨wanted, false⟩]) ++ [⟨b.size - wanted - 48, true⟩] by simp,
        lastAddr_concat]
      simp only [extent_append, extent_cons, extent_nil]
      omega
    rw [hprev]
    refine hsegment.2.2.relink ?_ ?_
    · intro hpost
      have hnext : nextPtr s.gHeapEnd (s.gHeapBase + extent pre + 48 + b.size) =
          s.gHeapBase + extent pre + 48 + b.size := by
        have := extent_pos hpost
        exact if_neg (by omega)
      rw [carvedMem, header_storeFree_apart (by omega), hnext,
        header_splitMem_next (by omega) (by omega), Nat.mod_eq_of_lt (by omega)]
    · intro a ha
      rw [carvedMem, storeFree_onlyHeader _ _ _ a (by omega),
        splitMem_outside (by omega) (by omega) (by omega)]

theorem onlyHeaders_carvedMem (h : Layout s (pre ++ b :: post)) (hlarge : wanted + 80 < b.size) :
    OnlyHeaders s.gHeapBase (pre ++ b :: post) (pre ++ carve b wanted ++ post) s.mem
      (carvedMem s pre b wanted) := by
  intro a hold hnew
  -- A byte outside all headers is outside the three headers that the split writes to.
  have hblockByte : a < s.gHeapBase + extent pre ∨ s.gHeapBase + extent pre + 48 ≤ a := by
    by_contra hin
    exact hold ⟨_, b, mem_placed_middle _ _ _ _, by omega, by omega⟩
  have hnewByte : a < s.gHeapBase + extent pre + 48 + wanted ∨
      s.gHeapBase + extent pre + 48 + wanted + 48 ≤ a := by
    by_contra hin
    refine hnew ⟨s.gHeapBase + extent pre + 48 + wanted, ⟨b.size - wanted - 48, true⟩, ?_,
      by omega, by omega⟩
    rw [carve_of_large hlarge, placed_append, placed_append]
    simp
  have hnextByte : nextPtr s.gHeapEnd (s.gHeapBase + extent pre + 48 + b.size) = 0 ∨
      a < nextPtr s.gHeapEnd (s.gHeapBase + extent pre + 48 + b.size) ∨
      nextPtr s.gHeapEnd (s.gHeapBase + extent pre + 48 + b.size) + 48 ≤ a := by
    rcases nextPtr_after h with hzero | ⟨heq, hpost⟩
    · exact .inl hzero
    · by_contra hin
      obtain ⟨c, rest, rfl⟩ := List.exists_cons_of_ne_nil hpost
      refine hold ⟨s.gHeapBase + extent pre + 48 + b.size, c, ?_, by omega, by omega⟩
      rw [placed_append]
      simp
  rw [carvedMem, storeFree_onlyHeader _ _ _ a hblockByte,
    splitMem_outside hblockByte hnewByte hnextByte]

theorem serve_of_large (h : Layout s (pre ++ b :: post))
    (haligned : wanted % 16 = 0) (hpos : 0 < wanted) (hlarge : wanted + 80 < b.size) :
    ∃ m', serve s (s.gHeapBase + extent pre) wanted = { s with mem := m' } ∧
      Layout { s with mem := m' } (pre ++ carve b wanted ++ post) ∧
      OnlyHeaders s.gHeapBase (pre ++ b :: post) (pre ++ carve b wanted ++ post) s.mem m' := by
  refine ⟨carvedMem s pre b wanted, ?_, layout_carvedMem h haligned hpos hlarge,
    onlyHeaders_carvedMem h hlarge⟩
  rw [serve, kmemSplitIfUseful_of_large h haligned hlarge]
  rfl

end Split

end Mcsos.KmemSplit

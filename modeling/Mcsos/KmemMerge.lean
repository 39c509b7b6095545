import Mcsos.KmemSplit

namespace Mcsos.KmemMerge

open Mcsos.ByteMemory
open Mcsos.KmemModel
open Mcsos.KmemHeaders
open Mcsos.KmemBlocks
open Mcsos.KmemSegments
open Mcsos.KmemSplit

/-- The memory after one round of the loop: the header at `next`, whose own
successor is `after`, is merged into the header at `block`. -/
def mergeMem (m : ByteMem) (block next after size : Nat) : ByteMem :=
  storeNext (storePrev (storeSize (storeMagic (linkPrev
    (storeNext (storeSize m block size) block after) after block)
      next 0) next 0) next 0) next 0

section MergeMem

variable {m : ByteMem} {block next after size : Nat}

theorem mergeMem_outside {a : Nat} (hblock : a < block ∨ block + 48 ≤ a)
    (hnext : a < next ∨ next + 48 ≤ a) (hafter : after = 0 ∨ a < after ∨ after + 48 ≤ a) :
    mergeMem m block next after size a = m a := by
  rw [mergeMem, storeNext_onlyHeader _ _ _ a hnext, storePrev_onlyHeader _ _ _ a hnext,
    storeSize_onlyHeader _ _ _ a hnext, storeMagic_onlyHeader _ _ _ a hnext,
    linkPrev_outside hafter, storeNext_onlyHeader _ _ _ a hblock,
    storeSize_onlyHeader _ _ _ a hblock]

theorem header_mergeMem_block (hnext : block + 48 ≤ next)
    (hafter : after = 0 ∨ next + 48 ≤ after) :
    header (mergeMem m block next after size) block =
      { header m block with size := size % 2 ^ 64, next := after % 2 ^ 64 } := by
  rw [mergeMem, header_storeNext_apart (by omega), header_storePrev_apart (by omega),
    header_storeSize_apart (by omega), header_storeMagic_apart (by omega),
    header_linkPrev_apart (by omega), header_storeNext, header_storeSize]

theorem header_mergeMem_next (hnext : block + 48 ≤ next) (hafter : after = 0 ∨ next + 48 ≤ after) :
    header (mergeMem m block next after size) next = ⟨0, 0, (header m next).free, 0, 0⟩ := by
  rw [mergeMem, header_storeNext, header_storePrev, header_storeSize, header_storeMagic,
    header_linkPrev_apart (by omega), header_storeNext_apart (by omega),
    header_storeSize_apart (by omega)]
  rfl

theorem header_mergeMem_after (hnext : block + 48 ≤ next) (hne : after ≠ 0)
    (hafter : next + 48 ≤ after) :
    header (mergeMem m block next after size) after =
      { header m after with prev := block % 2 ^ 64 } := by
  rw [mergeMem, header_storeNext_apart (by omega), header_storePrev_apart (by omega),
    header_storeSize_apart (by omega), header_storeMagic_apart (by omega),
    header_linkPrev hne, header_storeNext_apart (by omega), header_storeSize_apart (by omega)]

end MergeMem

section Round

variable {s : KmemState} {pre post : List Block} {b c : Block}

theorem kmemCoalesceLoop_stop (h : Layout s (pre ++ b :: post)) (fuel : Nat)
    (hstop : ∀ c ∈ post.head?, c.free = false) :
    kmemCoalesceLoop s.mem (s.gHeapBase + extent pre) (fuel + 1) = some s.mem := by
  obtain ⟨-, -, htiles, hheader⟩ := h.at_middle
  rw [kmemCoalesceLoop, if_pos]
  rw [blockNext_eq, hheader]
  cases post with
  | nil =>
      simp only [extent_nil, Nat.add_zero] at htiles
      exact .inr (.inl (if_pos htiles))
  | cons c post =>
      rw [extent_cons] at htiles
      have hnext : nextPtr s.gHeapEnd (s.gHeapBase + extent pre + 48 + b.size) =
          s.gHeapBase + extent pre + 48 + b.size := if_neg (by omega)
      have hc := (segment_append.mp h.segment).2.2.1
      refine .inr (.inr ?_)
      simp only [blockHeader]
      rw [hnext, blockFree_eq, hc]
      simp [blockHeader, hstop c rfl]

theorem Layout.at_pair (h : Layout s (pre ++ b :: c :: post)) :
    header s.mem (s.gHeapBase + extent pre) =
        ⟨kmemMagic, b.size, b.free.toNat, lastAddr 0 s.gHeapBase pre,
          s.gHeapBase + extent pre + 48 + b.size⟩ ∧
      header s.mem (s.gHeapBase + extent pre + 48 + b.size) =
        blockHeader s.gHeapEnd (s.gHeapBase + extent pre)
          (s.gHeapBase + extent pre + 48 + b.size) c ∧
      s.gHeapBase + extent pre + 48 + b.size + 48 + c.size + extent post = s.gHeapEnd := by
  obtain ⟨-, -, htiles, hheader⟩ := h.at_middle
  rw [extent_cons] at htiles
  have hnext : nextPtr s.gHeapEnd (s.gHeapBase + extent pre + 48 + b.size) =
      s.gHeapBase + extent pre + 48 + b.size := if_neg (by omega)
  refine ⟨?_, (segment_append.mp h.segment).2.2.1, by omega⟩
  rw [hheader, blockHeader, hnext]

theorem kmemCoalesceLoop_round (h : Layout s (pre ++ b :: c :: post))
    (hfree : c.free = true) (fuel : Nat) :
    kmemCoalesceLoop s.mem (s.gHeapBase + extent pre) (fuel + 1) =
      kmemCoalesceLoop
        (mergeMem s.mem (s.gHeapBase + extent pre) (s.gHeapBase + extent pre + 48 + b.size)
          (nextPtr s.gHeapEnd (s.gHeapBase + extent pre + 48 + b.size + 48 + c.size))
          (b.size + 48 + c.size))
        (s.gHeapBase + extent pre) fuel := by
  obtain ⟨hblock, hnext, htiles⟩ := Layout.at_pair h
  obtain ⟨haligned, hsize, -, -⟩ := h.at_middle
  have hend := h.end_bound
  have hpos : 0 < s.gHeapBase + extent pre := Nat.add_pos_left h.base_pos _
  generalize s.gHeapBase + extent pre = A at *
  have hpayload : kmemPayload A = A + 48 := kmemPayload_eq (by omega)
  have hexpected : kmemAlignUpPtr ((A + 48 + b.size) % 2 ^ 64) kmemAlign = A + 48 + b.size := by
    rw [Nat.mod_eq_of_lt (by omega)]
    exact kmemAlignUpPtr_of_aligned (by omega) (by omega)
  have hsum : (b.size + 48 + c.size) % 2 ^ 64 = b.size + 48 + c.size :=
    Nat.mod_eq_of_lt (by omega)
  have henter : ¬(A = 0 ∨ A + 48 + b.size = 0 ∨ c.free.toNat = 0) := by
    simp [hfree]
    omega
  rw [kmemCoalesceLoop]
  simp (disch := omega) only [blockNext_eq, blockSize_eq, blockFree_eq, hblock, hnext, hpayload,
    hexpected, header_storeSize_apart, header_storeNext_apart, blockHeader, sizeofKmemBlock,
    hsum, ne_eq, not_true_eq_false, if_false, if_neg henter]
  rfl

theorem layout_mergeMem (h : Layout s (pre ++ b :: c :: post)) :
    Layout
      { s with
        mem := mergeMem s.mem (s.gHeapBase + extent pre)
          (s.gHeapBase + extent pre + 48 + b.size)
          (nextPtr s.gHeapEnd (s.gHeapBase + extent pre + 48 + b.size + 48 + c.size))
          (b.size + 48 + c.size) }
      (pre ++ ⟨b.size + 48 + c.size, b.free⟩ :: post) := by
  obtain ⟨hblock, hnext, htiles⟩ := Layout.at_pair h
  have hend := h.end_bound
  have hb := h.sizes b (by simp)
  have hc := h.sizes c (by simp)
  have hsegment := h.segment
  rw [segment_append] at hsegment
  have h' : Layout s (pre ++ [b, c] ++ post) := by simpa using h
  have hafter : s.gHeapBase + extent pre + extent [b, c] =
      s.gHeapBase + extent pre + 48 + b.size + 48 + c.size := by
    simp only [extent_cons, extent_nil]
    omega
  have hzero : nextPtr s.gHeapEnd (s.gHeapBase + extent pre + 48 + b.size + 48 + c.size) = 0 ∨
      nextPtr s.gHeapEnd (s.gHeapBase + extent pre + 48 + b.size + 48 + c.size) =
        s.gHeapBase + extent pre + 48 + b.size + 48 + c.size := by
    unfold nextPtr
    split <;> simp
  have hcons : pre ++ ⟨b.size + 48 + c.size, b.free⟩ :: post =
      pre ++ [⟨b.size + 48 + c.size, b.free⟩] ++ post := by simp
  rw [hcons]
  refine h'.replace ?_ hafter ?_ (by simp) ?_ ?_ ?_
  · simp only [extent_cons, extent_nil]
    omega
  · simp only [List.mem_cons, List.not_mem_nil, or_false, forall_eq]
    omega
  · refine hsegment.1.frame fun a hlow hhigh => ?_
    exact mergeMem_outside (by omega) (by omega) (by omega)
  · refine ⟨?_, trivial⟩
    have haddr : s.gHeapBase + extent pre + 48 + (b.size + 48 + c.size) =
        s.gHeapBase + extent pre + 48 + b.size + 48 + c.size := by omega
    rw [header_mergeMem_block (by omega) (by omega), hblock]
    simp only [blockHeader, Header.mk.injEq, true_and, haddr]
    omega
  · rw [lastAddr_concat]
    refine hsegment.2.2.2.relink ?_ ?_
    · intro hpost
      have hlast : nextPtr s.gHeapEnd
          (s.gHeapBase + extent pre + 48 + b.size + 48 + c.size) =
          s.gHeapBase + extent pre + 48 + b.size + 48 + c.size := by
        have := extent_pos hpost
        exact if_neg (by omega)
      rw [hlast, header_mergeMem_after (by omega) (by omega) (by omega),
        Nat.mod_eq_of_lt (by omega)]
    · intro a ha
      exact mergeMem_outside (by omega) (by omega) (by omega)

end Round

/-- Nothing but header bytes of the list has changed. -/
def KeepsPayloads (cur : Nat) (bs : List Block) (m m' : ByteMem) : Prop :=
  ∀ a, ¬HeaderByte cur bs a → m' a = m a

theorem keepsPayloads_mergeMem {s : KmemState} {pre post : List Block} {b c : Block}
    (h : Layout s (pre ++ b :: c :: post)) :
    KeepsPayloads s.gHeapBase (pre ++ b :: c :: post) s.mem
      (mergeMem s.mem (s.gHeapBase + extent pre) (s.gHeapBase + extent pre + 48 + b.size)
        (nextPtr s.gHeapEnd (s.gHeapBase + extent pre + 48 + b.size + 48 + c.size))
        (b.size + 48 + c.size)) := by
  intro a hbyte
  obtain ⟨-, -, htiles⟩ := Layout.at_pair h
  have hplaced : placed s.gHeapBase (pre ++ b :: c :: post) =
      placed s.gHeapBase pre ++ (s.gHeapBase + extent pre, b) ::
        (s.gHeapBase + extent pre + 48 + b.size, c) ::
          placed (s.gHeapBase + extent pre + 48 + b.size + 48 + c.size) post := by
    rw [placed_append, placed_cons, placed_cons]
  apply mergeMem_outside
  · by_contra hin
    refine hbyte ⟨s.gHeapBase + extent pre, b, ?_, by omega, by omega⟩
    simp [hplaced]
  · by_contra hin
    refine hbyte ⟨s.gHeapBase + extent pre + 48 + b.size, c, ?_, by omega, by omega⟩
    simp [hplaced]
  · by_contra hin
    cases post with
    | nil =>
        simp only [extent_nil, Nat.add_zero] at htiles
        exact hin (.inl (if_pos htiles))
    | cons d post =>
        rw [extent_cons] at htiles
        have hlast : nextPtr s.gHeapEnd
            (s.gHeapBase + extent pre + 48 + b.size + 48 + c.size) =
            s.gHeapBase + extent pre + 48 + b.size + 48 + c.size := if_neg (by omega)
        refine hbyte ⟨s.gHeapBase + extent pre + 48 + b.size + 48 + c.size, d, ?_,
          by omega, by omega⟩
        simp [hplaced]

theorem headerByte_of_merged {cur a size : Nat} {pre post : List Block} {b c : Block}
    (hsize : size = b.size + 48 + c.size) (free : Bool)
    (h : HeaderByte cur (pre ++ ⟨size, free⟩ :: post) a) :
    HeaderByte cur (pre ++ b :: c :: post) a := by
  obtain ⟨k, d, hmem, hlow, hhigh⟩ := h
  have haddr : cur + extent pre + 48 + size = cur + extent pre + 48 + b.size + 48 + c.size := by
    omega
  rw [placed_append, placed_cons, List.mem_append, List.mem_cons, haddr] at hmem
  have hplaced : placed cur (pre ++ b :: c :: post) =
      placed cur pre ++ (cur + extent pre, b) :: (cur + extent pre + 48 + b.size, c) ::
        placed (cur + extent pre + 48 + b.size + 48 + c.size) post := by
    rw [placed_append, placed_cons, placed_cons]
  rcases hmem with hmem | hmem | hmem
  · exact ⟨k, d, by simp [hplaced, hmem], hlow, hhigh⟩
  · cases hmem
    exact ⟨_, b, by simp [hplaced], hlow, hhigh⟩
  · exact ⟨k, d, by simp [hplaced, hmem], hlow, hhigh⟩

theorem impostors_mergeMem {s : KmemState} {pre post : List Block} {b c : Block}
    (h : Layout s (pre ++ b :: c :: post)) (hfree : c.free = true) :
    impostors s.gHeapEnd s.gHeapBase (pre ++ ⟨b.size + 48 + c.size, b.free⟩ :: post)
        (mergeMem s.mem (s.gHeapBase + extent pre) (s.gHeapBase + extent pre + 48 + b.size)
          (nextPtr s.gHeapEnd (s.gHeapBase + extent pre + 48 + b.size + 48 + c.size))
          (b.size + 48 + c.size)) ⊆
      impostors s.gHeapEnd s.gHeapBase (pre ++ b :: c :: post) s.mem := by
  refine impostors_of_frame h (layout_mergeMem h) ?_ ?_
  · exact fun a hbyte _ => keepsPayloads_mergeMem h a hbyte
  · intro k d hmem
    rw [placed_append, placed_cons, placed_cons, List.mem_append, List.mem_cons,
      List.mem_cons] at hmem
    rw [placed_append, placed_cons]
    rcases hmem with hmem | hmem | hmem | hmem
    · exact .inl ⟨d, List.mem_append_left _ hmem⟩
    · cases hmem
      exact .inl ⟨_, List.mem_append_right _ List.mem_cons_self⟩
    · cases hmem
      obtain ⟨-, hnext, htiles⟩ := Layout.at_pair h
      refine .inr ?_
      rw [header_mergeMem_next (by omega), hnext]
      · simp [blockHeader, hfree, defaced]
      · unfold nextPtr
        split <;> omega
    · refine .inl ⟨d, List.mem_append_right _ (List.mem_cons_of_mem _ ?_)⟩
      have haddr : s.gHeapBase + extent pre + 48 + (b.size + 48 + c.size) =
          s.gHeapBase + extent pre + 48 + b.size + 48 + c.size := by omega
      rw [haddr]
      exact hmem

theorem kmemCoalesceLoop_layout {s : KmemState} {pre post : List Block} {b : Block}
    {fuel : Nat} (h : Layout s (pre ++ b :: post)) (hfuel : post.length < fuel) :
    ∃ m', kmemCoalesceLoop s.mem (s.gHeapBase + extent pre) fuel = some m' ∧
      Layout { s with mem := m' } (pre ++ mergeForward b post) ∧
      KeepsPayloads s.gHeapBase (pre ++ b :: post) s.mem m' ∧
      impostors s.gHeapEnd s.gHeapBase (pre ++ mergeForward b post) m' ⊆
        impostors s.gHeapEnd s.gHeapBase (pre ++ b :: post) s.mem := by
  induction post generalizing s b fuel with
  | nil =>
      obtain ⟨fuel, rfl⟩ : ∃ k, fuel = k + 1 := ⟨fuel - 1, by omega⟩
      exact ⟨s.mem, kmemCoalesceLoop_stop h fuel (by simp), h, fun a _ => rfl, subset_rfl⟩
  | cons c post ih =>
      obtain ⟨fuel, rfl⟩ : ∃ k, fuel = k + 1 := ⟨fuel - 1, by omega⟩
      rw [List.length_cons] at hfuel
      rw [mergeForward]
      split
      · rename_i hfree
        obtain ⟨m', hloop, hlayout, hkeeps, himpostors⟩ :=
          ih (layout_mergeMem h) (by omega : post.length < fuel)
        refine ⟨m', (kmemCoalesceLoop_round h hfree fuel).trans hloop, hlayout, ?_, ?_⟩
        · intro a hbyte
          rw [hkeeps a fun hmerged => hbyte (headerByte_of_merged rfl _ hmerged)]
          exact keepsPayloads_mergeMem h a hbyte
        · have hmerged := impostors_mergeMem h hfree
          exact himpostors.trans hmerged
      · rename_i hfree
        refine ⟨s.mem, kmemCoalesceLoop_stop h fuel ?_, h, fun a _ => rfl, subset_rfl⟩
        simpa using hfree

end Mcsos.KmemMerge

import Mcsos.KmemSegments

namespace Mcsos.KmemValidate

open Mcsos.ByteMemory
open Mcsos.KmemModel
open Mcsos.KmemHeaders
open Mcsos.KmemBlocks
open Mcsos.KmemSegments

/-- The value that a round gives the cursor: the end of the payload, rounded up. -/
def roundedEnd (m : ByteMem) (cur : Nat) : Nat :=
  kmemAlignUpPtr ((kmemPayload cur + blockSize m cur) % 2 ^ 64) kmemAlign

/-- What a round checks of the header at `cur`. -/
structure RoundOk (s : KmemState) (prev cursor cur : Nat) : Prop where
  at_cursor : cur = cursor
  above : s.gHeapBase ≤ cur
  below : (cur + 48) % 2 ^ 64 ≤ s.gHeapEnd
  magic : blockMagic s.mem cur = kmemMagic
  prev_eq : blockPrev s.mem cur = prev
  size_le : blockSize s.mem cur ≤ (s.gHeapEnd + 2 ^ 64 - kmemPayload cur) % 2 ^ 64
  after_ne : roundedEnd s.mem cur ≠ 0
  after_le : roundedEnd s.mem cur ≤ s.gHeapEnd

section Rounds

variable {s : KmemState} {budget prev cursor cur : Nat}

theorem kmemValidateLoop_null (s : KmemState) (budget prev cursor : Nat) :
    kmemValidateLoop s budget prev cursor 0 = 0 := by
  unfold kmemValidateLoop
  rw [if_pos rfl]

theorem kmemValidateLoop_limit (hcur : cur ≠ 0) : kmemValidateLoop s 0 prev cursor cur = -3 := by
  unfold kmemValidateLoop
  rw [if_neg hcur]

theorem kmemValidateLoop_round (hcur : cur ≠ 0) (hok : RoundOk s prev cursor cur) :
    kmemValidateLoop s (budget + 1) prev cursor cur =
      kmemValidateLoop s budget cur (roundedEnd s.mem cur) (blockNext s.mem cur) := by
  obtain ⟨hcursor, habove, hbelow, hmagic, hprev, hsize, hne, hle⟩ := hok
  rw [kmemValidateLoop, if_neg hcur]
  dsimp only
  rw [if_neg (not_not.mpr hcursor), if_neg, if_neg (not_not.mpr hmagic), if_neg (not_not.mpr hprev),
    if_neg (by omega), if_neg]
  · rfl
  · rw [roundedEnd] at hne hle
    omega
  · rw [sizeofKmemBlock]
    omega

theorem kmemValidateLoop_accepts (hcur : cur ≠ 0)
    (h : kmemValidateLoop s budget prev cursor cur = 0) :
    ∃ rest, budget = rest + 1 ∧ RoundOk s prev cursor cur ∧
      kmemValidateLoop s rest cur (roundedEnd s.mem cur) (blockNext s.mem cur) = 0 := by
  rcases budget with _ | rest
  · rw [kmemValidateLoop_limit hcur] at h
    cases h
  rw [kmemValidateLoop, if_neg hcur] at h
  dsimp only at h
  split at h
  · cases h
  case isFalse hcursor =>
    split at h
    · cases h
    case isFalse hinside =>
      split at h
      · cases h
      case isFalse hmagic =>
        split at h
        · cases h
        case isFalse hprev =>
          split at h
          · cases h
          case isFalse hsize =>
            split at h
            · cases h
            case isFalse hafter =>
              rw [sizeofKmemBlock] at hinside
              rw [not_or] at hinside hafter
              exact ⟨rest, rfl, ⟨not_not.mp hcursor, by omega, by omega, not_not.mp hmagic,
                not_not.mp hprev, by omega, hafter.1, not_lt.mp hafter.2⟩, h⟩

end Rounds

theorem roundOk_segment {s : KmemState} {prev cur : Nat} {b : Block} {bs : List Block}
    (h : Segment s.gHeapEnd s.mem prev cur (b :: bs)) (hb : b.size % 16 = 0)
    (hcur : cur % 16 = 0) (hbase : s.gHeapBase ≤ cur)
    (htiles : cur + extent (b :: bs) = s.gHeapEnd) (hend : s.gHeapEnd < 2 ^ 64) :
    RoundOk s prev cur cur ∧ roundedEnd s.mem cur = cur + 48 + b.size ∧
      blockNext s.mem cur = nextPtr s.gHeapEnd (cur + 48 + b.size) := by
  have hheader := h.1
  rw [extent_cons] at htiles
  have hpayload : kmemPayload cur = cur + 48 := kmemPayload_eq (by omega)
  have hsize : blockSize s.mem cur = b.size := by
    rw [blockSize_eq, hheader]
    rfl
  have hafter : roundedEnd s.mem cur = cur + 48 + b.size := by
    rw [roundedEnd, hpayload, hsize, Nat.mod_eq_of_lt (by omega)]
    exact kmemAlignUpPtr_of_aligned (by omega) (by omega)
  refine ⟨⟨rfl, hbase, by omega, ?_, ?_, ?_, by omega, by omega⟩, hafter, ?_⟩
  · rw [blockMagic_eq, hheader]
    rfl
  · rw [blockPrev_eq, hheader]
    rfl
  · rw [hsize, hpayload]
    omega
  · rw [blockNext_eq, hheader]
    rfl

theorem kmemValidateLoop_segment {s : KmemState} {prev cur budget : Nat} {bs : List Block}
    (h : Segment s.gHeapEnd s.mem prev cur bs) (hsizes : ∀ b ∈ bs, b.size % 16 = 0)
    (hcur : cur % 16 = 0) (hpos : 0 < s.gHeapBase) (hbase : s.gHeapBase ≤ cur)
    (htiles : cur + extent bs = s.gHeapEnd) (hend : s.gHeapEnd < 2 ^ 64) :
    kmemValidateLoop s budget prev cur (nextPtr s.gHeapEnd cur) =
      if bs.length ≤ budget then 0 else -3 := by
  induction bs generalizing prev cur budget with
  | nil =>
      rw [extent_nil, Nat.add_zero] at htiles
      rw [nextPtr, if_pos htiles, kmemValidateLoop_null, List.length_nil, if_pos (Nat.zero_le _)]
  | cons b bs ih =>
      have hb : b.size % 16 = 0 := hsizes b List.mem_cons_self
      obtain ⟨hok, hafter, hnext⟩ := roundOk_segment h hb hcur hbase htiles hend
      rw [extent_cons] at htiles
      have hhere : nextPtr s.gHeapEnd cur = cur := if_neg (by omega)
      rw [hhere, List.length_cons]
      rcases budget with _ | budget
      · rw [kmemValidateLoop_limit (by omega), if_neg (by omega)]
      · rw [kmemValidateLoop_round (by omega) hok, hafter, hnext,
          ih h.2 (fun c hc => hsizes c (List.mem_cons_of_mem _ hc)) (by omega) (by omega)
            (by omega)]
        simp only [Nat.add_le_add_iff_right]

theorem kmemValidate_layout {s : KmemState} {bs : List Block} (h : Layout s bs) :
    kmemValidate s = if bs.length ≤ kmemGuardLimit then 0 else -3 := by
  have hpos := extent_pos h.nonempty
  have htiles := h.tiles
  have hbase := h.base_pos
  have hhead : nextPtr s.gHeapEnd s.gHeapBase = s.gHead := by
    rw [h.head]
    exact if_neg (by omega)
  have hheadPos : s.gHead ≠ 0 := by
    rw [h.head]
    omega
  rw [kmemValidate, if_neg, if_neg (not_not.mpr h.head), ← hhead]
  · exact kmemValidateLoop_segment h.segment (fun b hb => (h.sizes b hb).1) h.base_aligned
      h.base_pos le_rfl h.tiles h.end_bound
  · rw [h.initialized]
    simp only [Bool.true_eq_false, false_or]
    omega

end Mcsos.KmemValidate

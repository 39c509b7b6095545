import Mcsos.KmemModel
import Mcsos.WordArithmetic

/-!
Block headers of the kernel heap as records, and what each field store does to
the header it writes, to every other header and to the bytes around it.
-/

namespace Mcsos.KmemHeaders

open Mcsos.ByteMemory
open Mcsos.KmemModel
open Mcsos.WordArithmetic

/-- The five fields of a header that the allocator reads. -/
structure Header where
  magic : Nat
  size : Nat
  free : Nat
  prev : Nat
  next : Nat
deriving DecidableEq, Repr

def header (m : ByteMem) (block : Nat) : Header :=
  ⟨blockMagic m block, blockSize m block, blockFree m block, blockPrev m block,
    blockNext m block⟩

theorem blockMagic_eq (m : ByteMem) (block : Nat) :
    blockMagic m block = (header m block).magic := rfl

theorem blockSize_eq (m : ByteMem) (block : Nat) :
    blockSize m block = (header m block).size := rfl

theorem blockFree_eq (m : ByteMem) (block : Nat) :
    blockFree m block = (header m block).free := rfl

theorem blockPrev_eq (m : ByteMem) (block : Nat) :
    blockPrev m block = (header m block).prev := rfl

theorem blockNext_eq (m : ByteMem) (block : Nat) :
    blockNext m block = (header m block).next := rfl

theorem header_congr {m m' : ByteMem} {block : Nat}
    (h : ∀ a, block ≤ a → a < block + 48 → m' a = m a) :
    header m' block = header m block := by
  have hfield : ∀ offset width, offset + width ≤ 48 →
      readLE m' (block + offset) width = readLE m (block + offset) width := by
    intro offset width hle
    exact readLE_congr fun a hlow hhigh => h a (by omega) (by omega)
  have hmagic : blockMagic m' block = blockMagic m block := hfield 0 8 (by omega)
  simp only [header, hmagic, blockSize, blockFree, blockPrev, blockNext,
    hfield 8 8 (by omega), hfield 16 4 (by omega), hfield 24 8 (by omega),
    hfield 32 8 (by omega)]

/-- Memories that agree outside the forty-eight bytes of one header. -/
def OnlyHeader (block : Nat) (m m' : ByteMem) : Prop :=
  ∀ a, a < block ∨ block + 48 ≤ a → m' a = m a

theorem OnlyHeader.trans {block : Nat} {m m' m'' : ByteMem}
    (h : OnlyHeader block m m') (h' : OnlyHeader block m' m'') :
    OnlyHeader block m m'' :=
  fun a ha => (h' a ha).trans (h a ha)

theorem OnlyHeader.header_apart {m m' : ByteMem} {block other : Nat}
    (h : OnlyHeader block m m') (hapart : block + 48 ≤ other ∨ other + 48 ≤ block) :
    header m' other = header m other :=
  header_congr fun a hlow hhigh => h a (by omega)

theorem writeLE_onlyHeader (m : ByteMem) (block offset width value : Nat)
    (h : offset + width ≤ 48) :
    OnlyHeader block m (writeLE m (block + offset) width value) :=
  fun _ ha => writeLE_outside (by omega)

theorem storeMagic_onlyHeader (m : ByteMem) (block value : Nat) :
    OnlyHeader block m (storeMagic m block value) :=
  writeLE_onlyHeader m block 0 8 value (by omega)

theorem storeSize_onlyHeader (m : ByteMem) (block value : Nat) :
    OnlyHeader block m (storeSize m block value) :=
  writeLE_onlyHeader m block 8 8 value (by omega)

theorem storeFree_onlyHeader (m : ByteMem) (block value : Nat) :
    OnlyHeader block m (storeFree m block value) :=
  writeLE_onlyHeader m block 16 4 value (by omega)

theorem storePad_onlyHeader (m : ByteMem) (block value : Nat) :
    OnlyHeader block m (storePad m block value) :=
  writeLE_onlyHeader m block 20 4 value (by omega)

theorem storePrev_onlyHeader (m : ByteMem) (block value : Nat) :
    OnlyHeader block m (storePrev m block value) :=
  writeLE_onlyHeader m block 24 8 value (by omega)

theorem storeNext_onlyHeader (m : ByteMem) (block value : Nat) :
    OnlyHeader block m (storeNext m block value) :=
  writeLE_onlyHeader m block 32 8 value (by omega)

section Apart

variable {m : ByteMem} {block other value : Nat}

theorem header_storeMagic_apart (h : block + 48 ≤ other ∨ other + 48 ≤ block) :
    header (storeMagic m block value) other = header m other :=
  (storeMagic_onlyHeader m block value).header_apart h

theorem header_storeSize_apart (h : block + 48 ≤ other ∨ other + 48 ≤ block) :
    header (storeSize m block value) other = header m other :=
  (storeSize_onlyHeader m block value).header_apart h

theorem header_storeFree_apart (h : block + 48 ≤ other ∨ other + 48 ≤ block) :
    header (storeFree m block value) other = header m other :=
  (storeFree_onlyHeader m block value).header_apart h

theorem header_storePad_apart (h : block + 48 ≤ other ∨ other + 48 ≤ block) :
    header (storePad m block value) other = header m other :=
  (storePad_onlyHeader m block value).header_apart h

theorem header_storePrev_apart (h : block + 48 ≤ other ∨ other + 48 ≤ block) :
    header (storePrev m block value) other = header m other :=
  (storePrev_onlyHeader m block value).header_apart h

theorem header_storeNext_apart (h : block + 48 ≤ other ∨ other + 48 ≤ block) :
    header (storeNext m block value) other = header m other :=
  (storeNext_onlyHeader m block value).header_apart h

end Apart

section Same

variable (m : ByteMem) (block value : Nat)

theorem header_storeMagic :
    header (storeMagic m block value) block =
      { header m block with magic := value % 2 ^ 64 } := by
  simp (disch := omega) [header, blockMagic, blockSize, blockFree, blockPrev, blockNext,
    storeMagic, readLE_writeLE, readLE_writeLE_disjoint]

theorem header_storeSize :
    header (storeSize m block value) block =
      { header m block with size := value % 2 ^ 64 } := by
  simp (disch := omega) [header, blockMagic, blockSize, blockFree, blockPrev, blockNext,
    storeSize, readLE_writeLE, readLE_writeLE_disjoint]

theorem header_storeFree :
    header (storeFree m block value) block =
      { header m block with free := value % 2 ^ 32 } := by
  simp (disch := omega) [header, blockMagic, blockSize, blockFree, blockPrev, blockNext,
    storeFree, readLE_writeLE, readLE_writeLE_disjoint]

theorem header_storePad :
    header (storePad m block value) block = header m block := by
  simp (disch := omega) [header, blockMagic, blockSize, blockFree, blockPrev, blockNext,
    storePad, readLE_writeLE_disjoint]

theorem header_storePrev :
    header (storePrev m block value) block =
      { header m block with prev := value % 2 ^ 64 } := by
  simp (disch := omega) [header, blockMagic, blockSize, blockFree, blockPrev, blockNext,
    storePrev, readLE_writeLE, readLE_writeLE_disjoint]

theorem header_storeNext :
    header (storeNext m block value) block =
      { header m block with next := value % 2 ^ 64 } := by
  simp (disch := omega) [header, blockMagic, blockSize, blockFree, blockPrev, blockNext,
    storeNext, readLE_writeLE, readLE_writeLE_disjoint]

end Same

theorem kmemAlignUpPtr_align (v : Nat) :
    kmemAlignUpPtr v kmemAlign = (v + 15) % 2 ^ 64 / 16 * 16 := by
  have hlt : (v + 15) % 2 ^ 64 < 2 ^ 64 := Nat.mod_lt _ (by omega)
  have h := and_highMask 4 64 (by omega) hlt
  simpa [kmemAlignUpPtr, kmemAlign] using h

theorem kmemAlignUpSize_align (v : Nat) :
    kmemAlignUpSize v kmemAlign = (v + 15) % 2 ^ 64 / 16 * 16 :=
  kmemAlignUpPtr_align v

theorem kmemAlignUpPtr_of_aligned {v : Nat} (haligned : v % 16 = 0) (hbound : v < 2 ^ 64) :
    kmemAlignUpPtr v kmemAlign = v := by
  rw [kmemAlignUpPtr_align]
  omega

theorem and_kmemAlign (v : Nat) : v &&& (kmemAlign - 1) = v % 16 :=
  Nat.and_two_pow_sub_one_eq_mod v 4

theorem kmemPayload_eq {block : Nat} (h : block + 48 < 2 ^ 64) :
    kmemPayload block = block + 48 := by
  rw [kmemPayload, sizeofKmemBlock, Nat.mod_eq_of_lt h]

theorem kmemHeaderFromPayload_eq {block : Nat} (h : block < 2 ^ 64) :
    kmemHeaderFromPayload (block + 48) = block := by
  rw [kmemHeaderFromPayload, sizeofKmemBlock]
  omega

theorem kmemMemset_eq_fill (m : ByteMem) (dst : Nat) (val : UInt8) (n : Nat) :
    kmemMemset m dst val n = fill m dst n val := by
  induction n generalizing m dst with
  | zero =>
      funext a
      rw [kmemMemset, fill, if_neg (by omega)]
  | succ n ih =>
      funext a
      rw [kmemMemset, ih, fill, fill, writeLE]
      by_cases hfirst : a = dst
      · subst a
        simp
      · by_cases hrest : dst + 1 ≤ a ∧ a < dst + 1 + n
        · rw [if_pos hrest, if_pos (by omega)]
        · rw [if_neg hrest, if_neg (by omega), if_neg (by omega)]

end Mcsos.KmemHeaders

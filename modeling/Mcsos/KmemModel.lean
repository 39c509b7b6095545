import Mcsos.ByteMemory

/-!
The kernel heap of `kernel/mm/kmem.c`.  Pointers and `size_t` values are
numbers below `2 ^ 64`, and additions and subtractions on them wrap.
-/

namespace Mcsos.KmemModel

open Mcsos.ByteMemory

def kmemAlign : Nat := 16

def kmemMinSplit : Nat := 32

def kmemMagic : Nat := 0x4d43534f53484541

/-- `sizeof(kmem_block_t)`: forty bytes of fields, rounded up to the alignment
of sixteen that the structure asks for. -/
def sizeofKmemBlock : Nat := 48

/-! The fields of `kmem_block_t`: `magic` at 0, `size` at 8, the two `int`s
`free` and `_pad` at 16 and 20, `prev` at 24 and `next` at 32. -/

def blockMagic (m : ByteMem) (block : Nat) : Nat := readLE m block 8

def blockSize (m : ByteMem) (block : Nat) : Nat := readLE m (block + 8) 8

def blockFree (m : ByteMem) (block : Nat) : Nat := readLE m (block + 16) 4

def blockPrev (m : ByteMem) (block : Nat) : Nat := readLE m (block + 24) 8

def blockNext (m : ByteMem) (block : Nat) : Nat := readLE m (block + 32) 8

def storeMagic (m : ByteMem) (block value : Nat) : ByteMem := writeLE m block 8 value

def storeSize (m : ByteMem) (block value : Nat) : ByteMem := writeLE m (block + 8) 8 value

def storeFree (m : ByteMem) (block value : Nat) : ByteMem := writeLE m (block + 16) 4 value

def storePad (m : ByteMem) (block value : Nat) : ByteMem := writeLE m (block + 20) 4 value

def storePrev (m : ByteMem) (block value : Nat) : ByteMem := writeLE m (block + 24) 8 value

def storeNext (m : ByteMem) (block value : Nat) : ByteMem := writeLE m (block + 32) 8 value

/-- The memory and the four globals of the allocator. -/
structure KmemState where
  mem : ByteMem
  gHeapBase : Nat
  gHeapEnd : Nat
  gHead : Nat
  gInitialized : Bool

def kmemMemset (m : ByteMem) (dst : Nat) (val : UInt8) : Nat → ByteMem
  | 0 => m
  | n + 1 => kmemMemset (writeLE m dst 1 val.toNat) (dst + 1) val n

def kmemAlignUpPtr (v align : Nat) : Nat :=
  (v + (align - 1)) % 2 ^ 64 &&& (2 ^ 64 - 1 - (align - 1))

def kmemAlignUpSize (v align : Nat) : Nat :=
  (v + (align - 1)) % 2 ^ 64 &&& (2 ^ 64 - 1 - (align - 1))

def kmemPayload (block : Nat) : Nat := (block + sizeofKmemBlock) % 2 ^ 64

def kmemHeaderFromPayload (ptr : Nat) : Nat := (ptr + 2 ^ 64 - sizeofKmemBlock) % 2 ^ 64

def kmemPtrInHeap (s : KmemState) (ptr : Nat) : Bool :=
  decide (s.gHeapBase ≤ ptr) && decide (ptr < s.gHeapEnd)

def kmemSplitIfUseful (s : KmemState) (block wanted : Nat) : KmemState :=
  let newAddr := kmemAlignUpPtr ((kmemPayload block + wanted) % 2 ^ 64) kmemAlign
  if s.gHeapEnd ≤ (newAddr + sizeofKmemBlock) % 2 ^ 64 then s
  else
    let consumed := (newAddr + 2 ^ 64 - kmemPayload block) % 2 ^ 64
    if blockSize s.mem block ≤ (consumed + sizeofKmemBlock + kmemMinSplit) % 2 ^ 64 then s
    else
      let m := storeMagic s.mem newAddr kmemMagic
      let m := storeSize m newAddr
        ((blockSize m block + 2 ^ 64 - consumed + 2 ^ 64 - sizeofKmemBlock) % 2 ^ 64)
      let m := storeFree m newAddr 1
      let m := storePad m newAddr 0
      let m := storePrev m newAddr block
      let m := storeNext m newAddr (blockNext m block)
      let m := if blockNext m block ≠ 0 then storePrev m (blockNext m block) newAddr else m
      let m := storeNext m block newAddr
      let m := storeSize m block wanted
      { s with mem := m }

/-- The loop of `kmem_coalesce_forward`; `none` when it has not ended after
`fuel` rounds. -/
def kmemCoalesceLoop (m : ByteMem) (block : Nat) : Nat → Option ByteMem
  | 0 => none
  | fuel + 1 =>
      if block = 0 ∨ blockNext m block = 0 ∨ blockFree m (blockNext m block) = 0 then some m
      else
        let next := blockNext m block
        let expected := kmemAlignUpPtr ((kmemPayload block + blockSize m block) % 2 ^ 64) kmemAlign
        if expected ≠ next then some m
        else
          let m := storeSize m block
            ((blockSize m block + sizeofKmemBlock + blockSize m next) % 2 ^ 64)
          let m := storeNext m block (blockNext m next)
          let m := if blockNext m next ≠ 0 then storePrev m (blockNext m next) block else m
          let m := storeMagic m next 0
          let m := storeSize m next 0
          let m := storePrev m next 0
          let m := storeNext m next 0
          kmemCoalesceLoop m block fuel

/-- Rounds after which a walk that follows 64-bit pointers and has not stopped
is running in a cycle. -/
def pointerFuel : Nat := 2 ^ 64

def kmemCoalesceForward (s : KmemState) (block : Nat) : Option KmemState :=
  (kmemCoalesceLoop s.mem block pointerFuel).map fun m => { s with mem := m }

/-- The limit that `guard` may reach in `kmem_validate`. -/
def kmemGuardLimit : Nat := 1048576

/-- The loop of `kmem_validate`, with `budget` rounds left before `guard`
exceeds its limit. -/
def kmemValidateLoop (s : KmemState) : (budget prev cursor cur : Nat) → Int
  | budget, prev, cursor, cur =>
      if cur = 0 then 0
      else
        match budget with
        | 0 => -3
        | budget + 1 =>
            if cur ≠ cursor then -4
            else if cur < s.gHeapBase ∨ s.gHeapEnd < (cur + sizeofKmemBlock) % 2 ^ 64 then -5
            else if blockMagic s.mem cur ≠ kmemMagic then -6
            else if blockPrev s.mem cur ≠ prev then -7
            else if (s.gHeapEnd + 2 ^ 64 - kmemPayload cur) % 2 ^ 64 < blockSize s.mem cur then -8
            else
              let cursor := kmemAlignUpPtr
                ((kmemPayload cur + blockSize s.mem cur) % 2 ^ 64) kmemAlign
              if cursor = 0 ∨ s.gHeapEnd < cursor then -9
              else kmemValidateLoop s budget cur cursor (blockNext s.mem cur)

def kmemValidate (s : KmemState) : Int :=
  if s.gInitialized = false ∨ s.gHeapBase = 0 ∨ s.gHeapEnd ≤ s.gHeapBase ∨ s.gHead = 0 then -1
  else if s.gHead ≠ s.gHeapBase then -2
  else kmemValidateLoop s kmemGuardLimit 0 s.gHeapBase s.gHead

def kmemInit (s : KmemState) (base bytes : Nat) : KmemState × Int :=
  if base = 0 ∨ bytes < sizeofKmemBlock + kmemMinSplit then (s, -1)
  else
    let start := kmemAlignUpPtr base kmemAlign
    if start = 0 ∨ start < base then (s, -2)
    else
      let lost := (start + 2 ^ 64 - base) % 2 ^ 64
      if bytes ≤ (lost + sizeofKmemBlock + kmemMinSplit) % 2 ^ 64 then (s, -3)
      else
        let usable := (bytes + 2 ^ 64 - lost) % 2 ^ 64 &&& (2 ^ 64 - 1 - (kmemAlign - 1))
        if usable ≤ sizeofKmemBlock + kmemMinSplit then (s, -4)
        else
          let m := storeMagic s.mem start kmemMagic
          let m := storeSize m start ((usable + 2 ^ 64 - sizeofKmemBlock) % 2 ^ 64)
          let m := storeFree m start 1
          let m := storePad m start 0
          let m := storePrev m start 0
          let m := storeNext m start 0
          let s : KmemState :=
            { mem := m
              gHeapBase := start
              gHeapEnd := (start + usable) % 2 ^ 64
              gHead := start
              gInitialized := true }
          (s, kmemValidate s)

/-- The search loop of `kmem_alloc`; `none` when it has not ended after `fuel`
rounds. -/
def kmemAllocLoop (s : KmemState) (wanted : Nat) : (fuel cur : Nat) → Option (KmemState × Nat)
  | 0, _ => none
  | fuel + 1, cur =>
      if cur = 0 then some (s, 0)
      else if blockMagic s.mem cur ≠ kmemMagic then some (s, 0)
      else if blockFree s.mem cur ≠ 0 ∧ wanted ≤ blockSize s.mem cur then
        let s := kmemSplitIfUseful s cur wanted
        some ({ s with mem := storeFree s.mem cur 0 }, kmemPayload cur)
      else kmemAllocLoop s wanted fuel (blockNext s.mem cur)

/-- `kmem_alloc`, with the pointer it returns; `none` if it does not return. -/
def kmemAlloc (s : KmemState) (bytes : Nat) : Option (KmemState × Nat) :=
  if s.gInitialized = false ∨ bytes = 0 then some (s, 0)
  else
    let wanted := kmemAlignUpSize bytes kmemAlign
    if wanted = 0 then some (s, 0)
    else kmemAllocLoop s wanted pointerFuel s.gHead

def kmemCalloc (s : KmemState) (count bytes : Nat) : Option (KmemState × Nat) :=
  if count ≠ 0 ∧ (2 ^ 64 - 1) / count < bytes then some (s, 0)
  else
    let total := count * bytes % 2 ^ 64
    (kmemAlloc s total).map fun (s, ptr) =>
      if ptr ≠ 0 then ({ s with mem := kmemMemset s.mem ptr 0 total }, ptr) else (s, ptr)

/-- `kmem_free_checked`, with its return code; `none` if it does not return. -/
def kmemFreeChecked (s : KmemState) (ptr : Nat) : Option (KmemState × Int) :=
  if ptr = 0 then some (s, 0)
  else if kmemPtrInHeap s ptr = false then some (s, -1)
  else if ptr &&& (kmemAlign - 1) ≠ 0 then some (s, -2)
  else
    let block := kmemHeaderFromPayload ptr
    if kmemPtrInHeap s block = false ∨ blockMagic s.mem block ≠ kmemMagic then some (s, -3)
    else if blockFree s.mem block ≠ 0 then some (s, -4)
    else
      (kmemCoalesceForward { s with mem := storeFree s.mem block 1 } block).bind fun s =>
        (if blockPrev s.mem block ≠ 0 ∧ blockFree s.mem (blockPrev s.mem block) ≠ 0 then
          kmemCoalesceForward s (blockPrev s.mem block)
        else some s).bind fun s => some (s, kmemValidate s)

/-- `kmem_stats_t`. -/
structure KmemStats where
  totalBytes : Nat
  usedBytes : Nat
  freeBytes : Nat
  blockCount : Nat
  freeCount : Nat
  largestFree : Nat
deriving DecidableEq, Repr

def kmemStatsLoop (m : ByteMem) : (fuel : Nat) → KmemStats → (cur : Nat) → Option KmemStats
  | 0, _, _ => none
  | fuel + 1, out, cur =>
      if cur = 0 then some out
      else
        let out := { out with blockCount := (out.blockCount + 1) % 2 ^ 64 }
        let out :=
          if blockFree m cur ≠ 0 then
            { out with
              freeCount := (out.freeCount + 1) % 2 ^ 64
              freeBytes := (out.freeBytes + blockSize m cur) % 2 ^ 64
              largestFree :=
                if out.largestFree < blockSize m cur then blockSize m cur else out.largestFree }
          else { out with usedBytes := (out.usedBytes + blockSize m cur) % 2 ^ 64 }
        kmemStatsLoop m fuel out (blockNext m cur)

def kmemGetStats (s : KmemState) : Option KmemStats :=
  let out : KmemStats := ⟨0, 0, 0, 0, 0, 0⟩
  if s.gInitialized = false then some out
  else
    kmemStatsLoop s.mem pointerFuel
      { out with totalBytes := (s.gHeapEnd + 2 ^ 64 - s.gHeapBase) % 2 ^ 64 } s.gHead

end Mcsos.KmemModel

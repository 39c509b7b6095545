import Mathlib.Data.Nat.Bitwise

/-!
The physical frame allocator of `src/pmm.c`.  The `uint64_t` values are numbers
below `2 ^ 64`, and additions on them wrap.
-/

namespace Mcsos.PmmModel

def pmmPageSize : Nat := 4096

def pmmInvalidFrame : Nat := 0xffffffffffffffff

/-- `BOOT_MEM_USABLE`, the only region type that the allocator singles out. -/
def bootMemUsable : UInt32 := 1

/-- `struct boot_mem_region`. -/
structure BootMemRegion where
  base : UInt64
  length : UInt64
  type : UInt32
deriving DecidableEq, Repr

/-- The bytes behind the `bitmap` pointer. -/
abbrev Bitmap := Nat → UInt8

/-- `struct pmm_state`. -/
structure PmmState where
  bitmap : Bitmap
  bitmapBytes : Nat
  maxPhys : Nat
  frameCount : Nat
  freeFrames : Nat
  usedFrames : Nat
  reservedFrames : Nat
  ignoredFrames : Nat
  nextHint : Nat
  initialized : Bool

def alignDown (value align : Nat) : Nat := value &&& (2 ^ 64 - 1 - (align - 1))

def alignUp (value align : Nat) : Nat :=
  (value + align - 1) % 2 ^ 64 &&& (2 ^ 64 - 1 - (align - 1))

def checkedAddU64 (a b : Nat) : Option Nat :=
  if 2 ^ 64 - 1 - a < b then none else some (a + b)

/-- `(uint8_t)(1U << (index & 7U))`. -/
def bitMask (index : Nat) : UInt8 := 1 <<< UInt8.ofNat (index &&& 7)

def bitmapSet (bitmap : Bitmap) (index : Nat) : Bitmap :=
  Function.update bitmap (index >>> 3) (bitmap (index >>> 3) ||| bitMask index)

def bitmapClear (bitmap : Bitmap) (index : Nat) : Bitmap :=
  Function.update bitmap (index >>> 3) (bitmap (index >>> 3) &&& ~~~bitMask index)

def bitmapTest (bitmap : Bitmap) (index : Nat) : Bool :=
  bitmap (index >>> 3) &&& bitMask index != 0

def markFrameFree (pmm : PmmState) (frame : Nat) : PmmState :=
  if pmm.frameCount ≤ frame then pmm
  else if bitmapTest pmm.bitmap frame then
    { pmm with
      bitmap := bitmapClear pmm.bitmap frame
      freeFrames := (pmm.freeFrames + 1) % 2 ^ 64
      usedFrames := if 0 < pmm.usedFrames then pmm.usedFrames - 1 else pmm.usedFrames
      nextHint := if frame < pmm.nextHint then frame else pmm.nextHint }
  else pmm

def markFrameUsed (pmm : PmmState) (frame : Nat) : PmmState :=
  if pmm.frameCount ≤ frame then pmm
  else if bitmapTest pmm.bitmap frame then pmm
  else
    { pmm with
      bitmap := bitmapSet pmm.bitmap frame
      freeFrames := if 0 < pmm.freeFrames then pmm.freeFrames - 1 else pmm.freeFrames
      usedFrames := (pmm.usedFrames + 1) % 2 ^ 64 }

/-- The loop `for (addr = start; addr < stop; addr += PMM_PAGE_SIZE)` over the
body `visit`, which gets `addr / PMM_PAGE_SIZE`.  The bound `stop` is at most
`max_phys`, a multiple of the page size, so the counter does not wrap. -/
def forPages (visit : PmmState → Nat → PmmState) (pmm : PmmState) (addr : Nat) : Nat → PmmState
  | 0 => pmm
  | pages + 1 => forPages visit (visit pmm (addr / pmmPageSize)) (addr + pmmPageSize) pages

/-- The pages that a loop from `start` to `stop` visits. -/
def pagesBetween (start stop : Nat) : Nat := (stop - start + (pmmPageSize - 1)) / pmmPageSize

def markRangeFree (pmm : PmmState) (base length : Nat) : PmmState :=
  if length = 0 then pmm
  else
    match checkedAddU64 base length with
    | none => pmm
    | some last =>
        let start := alignUp base pmmPageSize
        let stop := alignDown last pmmPageSize
        if stop ≤ start ∨ pmm.maxPhys ≤ start then pmm
        else
          let stop := if pmm.maxPhys < stop then pmm.maxPhys else stop
          forPages markFrameFree pmm start (pagesBetween start stop)

/-- The body of the loop in `mark_range_used`. -/
def reserveFrame (pmm : PmmState) (frame : Nat) : PmmState :=
  let wasFree := !bitmapTest pmm.bitmap frame
  let pmm := markFrameUsed pmm frame
  if wasFree then { pmm with reservedFrames := (pmm.reservedFrames + 1) % 2 ^ 64 } else pmm

def markRangeUsed (pmm : PmmState) (base length : Nat) : PmmState :=
  if length = 0 then pmm
  else
    match checkedAddU64 base length with
    | none => pmm
    | some last =>
        let start := alignDown base pmmPageSize
        let stop := alignUp last pmmPageSize
        if stop ≤ start ∨ pmm.maxPhys ≤ start then pmm
        else
          let stop := if pmm.maxPhys < stop then pmm.maxPhys else stop
          forPages reserveFrame pmm start (pagesBetween start stop)

/-- `pmm_zero_state`; the null bitmap is modelled by one of zero bytes. -/
def pmmZeroState : PmmState := ⟨fun _ => 0, 0, 0, 0, 0, 0, 0, 0, 0, false⟩

/-- The loop that gives the first `count` bytes of the bitmap the value `0xff`. -/
def fillBitmap (bitmap : Bitmap) : Nat → Bitmap
  | 0 => bitmap
  | count + 1 => Function.update (fillBitmap bitmap count) count 0xff

/-- The loop of `pmm_init_from_map` over the usable regions. -/
def freeUsableRegions (pmm : PmmState) (regions : List BootMemRegion) : PmmState :=
  regions.foldl (fun pmm region =>
    if region.type = bootMemUsable then
      markRangeFree pmm region.base.toNat region.length.toNat
    else pmm) pmm

/-- The loop of `pmm_init_from_map` over the other regions. -/
def reserveOtherRegions (pmm : PmmState) (regions : List BootMemRegion) : PmmState :=
  regions.foldl (fun pmm region =>
    if region.type ≠ bootMemUsable then
      markRangeUsed pmm region.base.toNat region.length.toNat
    else pmm) pmm

/-- `pmm_init_from_map`.  A null `regions` or `bitmap_storage` is `none`. -/
def pmmInitFromMap (pmm : PmmState) (regions : Option (List BootMemRegion))
    (bitmapStorage : Option Bitmap) (bitmapStorageBytes maxPhysBytes : Nat) :
    PmmState × Bool :=
  match regions, bitmapStorage with
  | some regions, some bitmapStorage =>
      if regions = [] then (pmm, false)
      else if maxPhysBytes = 0 ∨ maxPhysBytes &&& (pmmPageSize - 1) ≠ 0 then (pmm, false)
      else
        let frameCount := maxPhysBytes / pmmPageSize
        let required := (frameCount + 7) % 2 ^ 64 / 8
        if bitmapStorageBytes < required then (pmm, false)
        else
          let pmm : PmmState :=
            { pmmZeroState with
              bitmap := fillBitmap bitmapStorage required
              bitmapBytes := required
              maxPhys := maxPhysBytes
              frameCount := frameCount
              usedFrames := frameCount }
          let pmm := freeUsableRegions pmm regions
          let pmm := markRangeUsed pmm 0 pmmPageSize
          let pmm := reserveOtherRegions pmm regions
          ({ pmm with initialized := true }, true)
  | _, _ => (pmm, false)

/-- The first frame from `frame` on, among the next `count`, whose bit is clear. -/
def scanFrames (bitmap : Bitmap) (frame : Nat) : Nat → Option Nat
  | 0 => none
  | count + 1 =>
      if bitmapTest bitmap frame then scanFrames bitmap (frame + 1) count else some frame

/-- What both loops of `pmm_alloc_frame` do with the frame they find. -/
def takeFrame (pmm : PmmState) (frame : Nat) : PmmState × Nat :=
  ({ markFrameUsed pmm frame with nextHint := (frame + 1) % 2 ^ 64 },
    frame * pmmPageSize % 2 ^ 64)

def pmmAllocFrame (pmm : PmmState) : PmmState × Nat :=
  if pmm.initialized = false ∨ pmm.freeFrames = 0 then (pmm, pmmInvalidFrame)
  else
    match scanFrames pmm.bitmap pmm.nextHint (pmm.frameCount - pmm.nextHint) with
    | some frame => takeFrame pmm frame
    | none =>
        match scanFrames pmm.bitmap 0 pmm.nextHint with
        | some frame => takeFrame pmm frame
        | none => (pmm, pmmInvalidFrame)

def pmmFreeFrame (pmm : PmmState) (physAddr : Nat) : PmmState × Bool :=
  if pmm.initialized = false then (pmm, false)
  else if physAddr &&& (pmmPageSize - 1) ≠ 0 ∨ physAddr = 0 ∨ pmm.maxPhys ≤ physAddr then
    (pmm, false)
  else if bitmapTest pmm.bitmap (physAddr / pmmPageSize) = false then (pmm, false)
  else (markFrameFree pmm (physAddr / pmmPageSize), true)

def pmmReserveRange (pmm : PmmState) (base length : Nat) : PmmState × Bool :=
  if pmm.initialized = false ∨ length = 0 then (pmm, false)
  else (markRangeUsed pmm base length, true)

def pmmIsFrameFree (pmm : PmmState) (physAddr : Nat) : Bool :=
  if pmm.initialized = false then false
  else if physAddr &&& (pmmPageSize - 1) ≠ 0 ∨ pmm.maxPhys ≤ physAddr then false
  else !bitmapTest pmm.bitmap (physAddr / pmmPageSize)

end Mcsos.PmmModel

import Mcsos.PmmCounters

/-!
The frame allocator with its silent failures made loud.  The strict allocator is the code of
`src/pmm.c` once more, but an access behind the end of the bitmap and a guarded decrement of a
counter that is zero have no result.  Along every run it computes what the code does.
-/

namespace Mcsos.PmmStrict

open Mcsos.CallSystem
open Mcsos.PmmModel
open Mcsos.PmmBitmap
open Mcsos.PmmOwnership
open Mcsos.PmmCounters

def strictTest (pmm : PmmState) (index : Nat) : Option Bool :=
  if index >>> 3 < pmm.bitmapBytes then some (bitmapTest pmm.bitmap index) else none

def strictSet (pmm : PmmState) (index : Nat) : Option Bitmap :=
  if index >>> 3 < pmm.bitmapBytes then some (bitmapSet pmm.bitmap index) else none

def strictClear (pmm : PmmState) (index : Nat) : Option Bitmap :=
  if index >>> 3 < pmm.bitmapBytes then some (bitmapClear pmm.bitmap index) else none

/-- `if (counter > 0) counter--`, for a counter that must not be zero. -/
def strictDecrement (counter : Nat) : Option Nat :=
  if 0 < counter then some (counter - 1) else none

def strictMarkFrameFree (pmm : PmmState) (frame : Nat) : Option PmmState :=
  if pmm.frameCount ≤ frame then some pmm
  else do
    let isUsed ← strictTest pmm frame
    if isUsed then
      let bitmap ← strictClear pmm frame
      let usedFrames ← strictDecrement pmm.usedFrames
      some { pmm with
        bitmap := bitmap
        freeFrames := (pmm.freeFrames + 1) % 2 ^ 64
        usedFrames := usedFrames
        nextHint := if frame < pmm.nextHint then frame else pmm.nextHint }
    else some pmm

def strictMarkFrameUsed (pmm : PmmState) (frame : Nat) : Option PmmState :=
  if pmm.frameCount ≤ frame then some pmm
  else do
    let isUsed ← strictTest pmm frame
    if isUsed then some pmm
    else
      let bitmap ← strictSet pmm frame
      let freeFrames ← strictDecrement pmm.freeFrames
      some { pmm with
        bitmap := bitmap
        freeFrames := freeFrames
        usedFrames := (pmm.usedFrames + 1) % 2 ^ 64 }

def strictForPages (visit : PmmState → Nat → Option PmmState) (pmm : PmmState) (addr : Nat) :
    Nat → Option PmmState
  | 0 => some pmm
  | pages + 1 => do
      let pmm ← visit pmm (addr / pmmPageSize)
      strictForPages visit pmm (addr + pmmPageSize) pages

def strictMarkRangeFree (pmm : PmmState) (base length : Nat) : Option PmmState :=
  if length = 0 then some pmm
  else
    match checkedAddU64 base length with
    | none => some pmm
    | some last =>
        let start := alignUp base pmmPageSize
        let stop := alignDown last pmmPageSize
        if stop ≤ start ∨ pmm.maxPhys ≤ start then some pmm
        else
          let stop := if pmm.maxPhys < stop then pmm.maxPhys else stop
          strictForPages strictMarkFrameFree pmm start (pagesBetween start stop)

/-- The body of the loop in `mark_range_used`, which looks at the bit before the frame is
compared with the number of frames. -/
def strictReserveFrame (pmm : PmmState) (frame : Nat) : Option PmmState := do
  let isUsed ← strictTest pmm frame
  let pmm ← strictMarkFrameUsed pmm frame
  some (if isUsed then pmm
    else { pmm with reservedFrames := (pmm.reservedFrames + 1) % 2 ^ 64 })

def strictMarkRangeUsed (pmm : PmmState) (base length : Nat) : Option PmmState :=
  if length = 0 then some pmm
  else
    match checkedAddU64 base length with
    | none => some pmm
    | some last =>
        let start := alignDown base pmmPageSize
        let stop := alignUp last pmmPageSize
        if stop ≤ start ∨ pmm.maxPhys ≤ start then some pmm
        else
          let stop := if pmm.maxPhys < stop then pmm.maxPhys else stop
          strictForPages strictReserveFrame pmm start (pagesBetween start stop)

/-- The loop that fills the bitmap of `bytes` bytes. -/
def strictFillBitmap (bytes : Nat) (bitmap : Bitmap) : Nat → Option Bitmap
  | 0 => some bitmap
  | count + 1 => do
      let bitmap ← strictFillBitmap bytes bitmap count
      if count < bytes then some (Function.update bitmap count 0xff) else none

def strictFreeUsableRegions (pmm : PmmState) (regions : List BootMemRegion) : Option PmmState :=
  regions.foldlM (fun pmm region =>
    if region.type = bootMemUsable then
      strictMarkRangeFree pmm region.base.toNat region.length.toNat
    else some pmm) pmm

def strictReserveOtherRegions (pmm : PmmState) (regions : List BootMemRegion) :
    Option PmmState :=
  regions.foldlM (fun pmm region =>
    if region.type ≠ bootMemUsable then
      strictMarkRangeUsed pmm region.base.toNat region.length.toNat
    else some pmm) pmm

def strictInitFromMap (pmm : PmmState) (regions : Option (List BootMemRegion))
    (bitmapStorage : Option Bitmap) (bitmapStorageBytes maxPhysBytes : Nat) :
    Option (PmmState × Bool) :=
  match regions, bitmapStorage with
  | some regions, some bitmapStorage =>
      if regions = [] then some (pmm, false)
      else if maxPhysBytes = 0 ∨ maxPhysBytes &&& (pmmPageSize - 1) ≠ 0 then some (pmm, false)
      else
        let frameCount := maxPhysBytes / pmmPageSize
        let required := (frameCount + 7) % 2 ^ 64 / 8
        if bitmapStorageBytes < required then some (pmm, false)
        else do
          let bitmap ← strictFillBitmap required bitmapStorage required
          let pmm : PmmState :=
            { pmmZeroState with
              bitmap := bitmap
              bitmapBytes := required
              maxPhys := maxPhysBytes
              frameCount := frameCount
              usedFrames := frameCount }
          let pmm ← strictFreeUsableRegions pmm regions
          let pmm ← strictMarkRangeUsed pmm 0 pmmPageSize
          let pmm ← strictReserveOtherRegions pmm regions
          some ({ pmm with initialized := true }, true)
  | _, _ => some (pmm, false)

def strictScanFrames (pmm : PmmState) (frame : Nat) : Nat → Option (Option Nat)
  | 0 => some none
  | count + 1 => do
      let isUsed ← strictTest pmm frame
      if isUsed then strictScanFrames pmm (frame + 1) count else some (some frame)

def strictTakeFrame (pmm : PmmState) (frame : Nat) : Option (PmmState × Nat) := do
  let pmm ← strictMarkFrameUsed pmm frame
  some ({ pmm with nextHint := (frame + 1) % 2 ^ 64 }, frame * pmmPageSize % 2 ^ 64)

def strictAllocFrame (pmm : PmmState) : Option (PmmState × Nat) :=
  if pmm.initialized = false ∨ pmm.freeFrames = 0 then some (pmm, pmmInvalidFrame)
  else do
    match ← strictScanFrames pmm pmm.nextHint (pmm.frameCount - pmm.nextHint) with
    | some frame => strictTakeFrame pmm frame
    | none =>
        match ← strictScanFrames pmm 0 pmm.nextHint with
        | some frame => strictTakeFrame pmm frame
        | none => some (pmm, pmmInvalidFrame)

def strictFreeFrame (pmm : PmmState) (physAddr : Nat) : Option (PmmState × Bool) :=
  if pmm.initialized = false then some (pmm, false)
  else if physAddr &&& (pmmPageSize - 1) ≠ 0 ∨ physAddr = 0 ∨ pmm.maxPhys ≤ physAddr then
    some (pmm, false)
  else do
    let isUsed ← strictTest pmm (physAddr / pmmPageSize)
    if isUsed = false then some (pmm, false)
    else
      let pmm ← strictMarkFrameFree pmm (physAddr / pmmPageSize)
      some (pmm, true)

def strictReserveRange (pmm : PmmState) (base length : Nat) : Option (PmmState × Bool) :=
  if pmm.initialized = false ∨ length = 0 then some (pmm, false)
  else do
    let pmm ← strictMarkRangeUsed pmm base length
    some (pmm, true)

/-- One call of a client. -/
def strictCall (pmm : PmmState) : PmmCall → Option (PmmState × PmmResult)
  | .alloc => do
      let (pmm, physAddr) ← strictAllocFrame pmm
      some (pmm, .frame physAddr)
  | .free physAddr => do
      let (pmm, ok) ← strictFreeFrame pmm physAddr
      some (pmm, .flag ok)
  | .reserve base length => do
      let (pmm, ok) ← strictReserveRange pmm base length
      some (pmm, .flag ok)

section Frame

variable {pmm : PmmState} {f : Nat}

theorem byte_lt (h : Counted pmm) (hlt : f < pmm.frameCount) : f >>> 3 < pmm.bitmapBytes := by
  rw [Nat.shiftRight_eq_div_pow, h.bitmapBytes_eq]
  omega

theorem strictTest_eq (h : Counted pmm) (hlt : f < pmm.frameCount) :
    strictTest pmm f = some (bitmapTest pmm.bitmap f) :=
  if_pos (byte_lt h hlt)

theorem strictMarkFrameFree_eq (h : Counted pmm) (f : Nat) :
    strictMarkFrameFree pmm f = some (markFrameFree pmm f) := by
  rw [strictMarkFrameFree, markFrameFree]
  split
  · rfl
  case isFalse hinside =>
    have hlt : f < pmm.frameCount := by omega
    rw [strictTest_eq h hlt, strictClear, if_pos (byte_lt h hlt)]
    cases hbit : bitmapTest pmm.bitmap f with
    | false => rfl
    | true =>
        have hpos : 0 < pmm.usedFrames := by
          rw [h.used_eq, Finset.card_pos]
          exact ⟨f, mem_setFrames.mpr ⟨hlt, hbit⟩⟩
        rw [strictDecrement, if_pos hpos, if_pos hpos]
        rfl

theorem strictMarkFrameUsed_eq (h : Counted pmm) (f : Nat) :
    strictMarkFrameUsed pmm f = some (markFrameUsed pmm f) := by
  rw [strictMarkFrameUsed, markFrameUsed]
  split
  · rfl
  case isFalse hinside =>
    have hlt : f < pmm.frameCount := by omega
    rw [strictTest_eq h hlt, strictSet, if_pos (byte_lt h hlt)]
    cases hbit : bitmapTest pmm.bitmap f with
    | true => rfl
    | false =>
        have hpos : 0 < pmm.freeFrames := by
          rw [h.free_eq, Finset.card_pos]
          exact ⟨f, mem_clearFrames.mpr ⟨hlt, hbit⟩⟩
        rw [strictDecrement, if_pos hpos, if_pos hpos]
        rfl

theorem strictReserveFrame_eq (h : Counted pmm) (hlt : f < pmm.frameCount) :
    strictReserveFrame pmm f = some (reserveFrame pmm f) := by
  rw [strictReserveFrame, strictTest_eq h hlt, strictMarkFrameUsed_eq h, reserveFrame]
  cases bitmapTest pmm.bitmap f <;> rfl

end Frame

section Loops

variable {pmm : PmmState}

theorem pagesBetween_le {start stop n : Nat} (hstart : start < 4096 * n) (hstop : stop ≤ 4096 * n) :
    start / 4096 + pagesBetween start stop ≤ n := by
  unfold pagesBetween pmmPageSize
  omega

theorem strictForPages_eq {visit : PmmState → Nat → PmmState}
    {strictVisit : PmmState → Nat → Option PmmState}
    (hkeeps : ∀ pmm frame, Counted pmm → Counted (visit pmm frame))
    (hshape : ∀ pmm frame, SameShape pmm (visit pmm frame))
    (hvisit : ∀ pmm frame, Counted pmm → frame < pmm.frameCount →
      strictVisit pmm frame = some (visit pmm frame))
    (h : Counted pmm) {addr pages : Nat} (hpages : addr / 4096 + pages ≤ pmm.frameCount) :
    strictForPages strictVisit pmm addr pages = some (forPages visit pmm addr pages) := by
  induction pages generalizing pmm addr with
  | zero => rfl
  | succ pages ih =>
      have hnext : (addr + 4096) / 4096 = addr / 4096 + 1 := by omega
      have hfirst : addr / 4096 < pmm.frameCount := by omega
      rw [strictForPages, pmmPageSize, hvisit pmm _ h hfirst]
      apply ih (hkeeps pmm _ h)
      rw [hnext, (hshape pmm _).frameCount]
      omega

theorem strictMarkRangeFree_eq (h : Counted pmm) (base length : Nat) :
    strictMarkRangeFree pmm base length = some (markRangeFree pmm base length) := by
  unfold strictMarkRangeFree markRangeFree
  split
  · rfl
  · cases checkedAddU64 base length with
    | none => rfl
    | some last =>
        dsimp only
        split
        · rfl
        case isFalse hinside =>
          have hmax := h.maxPhys_eq
          apply strictForPages_eq (fun _ frame hc => hc.markFrameFree frame) markFrameFree_shape
            (fun _ frame hc _ => strictMarkFrameFree_eq hc frame) h
          apply pagesBetween_le
          · omega
          · split <;> omega

theorem strictMarkRangeUsed_eq (h : Counted pmm) (base length : Nat) :
    strictMarkRangeUsed pmm base length = some (markRangeUsed pmm base length) := by
  unfold strictMarkRangeUsed markRangeUsed
  split
  · rfl
  · cases checkedAddU64 base length with
    | none => rfl
    | some last =>
        dsimp only
        split
        · rfl
        case isFalse hinside =>
          have hmax := h.maxPhys_eq
          apply strictForPages_eq (fun _ frame hc => hc.reserveFrame frame) reserveFrame_shape
            (fun _ frame hc hlt => strictReserveFrame_eq hc hlt) h
          apply pagesBetween_le
          · omega
          · split <;> omega

theorem strictFreeUsableRegions_eq (h : Counted pmm) (regions : List BootMemRegion) :
    strictFreeUsableRegions pmm regions = some (freeUsableRegions pmm regions) := by
  induction regions generalizing pmm with
  | nil => rfl
  | cons region regions ih =>
      rw [strictFreeUsableRegions, freeUsableRegions, List.foldlM_cons, List.foldl_cons]
      split
      · rw [strictMarkRangeFree_eq h]
        exact ih (h.markRangeFree _ _)
      · exact ih h

theorem strictReserveOtherRegions_eq (h : Counted pmm) (regions : List BootMemRegion) :
    strictReserveOtherRegions pmm regions = some (reserveOtherRegions pmm regions) := by
  induction regions generalizing pmm with
  | nil => rfl
  | cons region regions ih =>
      rw [strictReserveOtherRegions, reserveOtherRegions, List.foldlM_cons, List.foldl_cons]
      split
      · rw [strictMarkRangeUsed_eq h]
        exact ih (h.markRangeUsed _ _)
      · exact ih h

theorem strictFillBitmap_eq (bitmap : Bitmap) {bytes count : Nat} (hle : count ≤ bytes) :
    strictFillBitmap bytes bitmap count = some (fillBitmap bitmap count) := by
  induction count with
  | zero => rfl
  | succ count ih =>
      rw [strictFillBitmap, ih (by omega), fillBitmap]
      exact if_pos hle

theorem strictScanFrames_eq (h : Counted pmm) {frame count : Nat}
    (hcount : frame + count ≤ pmm.frameCount) :
    strictScanFrames pmm frame count = some (scanFrames pmm.bitmap frame count) := by
  induction count generalizing frame with
  | zero => rfl
  | succ count ih =>
      rw [strictScanFrames, scanFrames, strictTest_eq h (by omega)]
      cases bitmapTest pmm.bitmap frame with
      | true => exact ih (by omega)
      | false => rfl

end Loops

section Calls

variable {pmm : PmmState}

theorem strictTakeFrame_eq (h : Counted pmm) (f : Nat) :
    strictTakeFrame pmm f = some (takeFrame pmm f) := by
  rw [strictTakeFrame, strictMarkFrameUsed_eq h]
  rfl

theorem strictAllocFrame_eq (h : Counted pmm) :
    strictAllocFrame pmm = some (pmmAllocFrame pmm) := by
  have hhint := h.hint_le
  rw [strictAllocFrame, pmmAllocFrame, strictScanFrames_eq h (by omega),
    strictScanFrames_eq h (by omega)]
  split
  · rfl
  · cases scanFrames pmm.bitmap pmm.nextHint (pmm.frameCount - pmm.nextHint) with
    | some frame => exact strictTakeFrame_eq h frame
    | none =>
        cases scanFrames pmm.bitmap 0 pmm.nextHint with
        | some frame => exact strictTakeFrame_eq h frame
        | none => rfl

theorem strictFreeFrame_eq (h : Counted pmm) (physAddr : Nat) :
    strictFreeFrame pmm physAddr = some (pmmFreeFrame pmm physAddr) := by
  unfold strictFreeFrame pmmFreeFrame
  split
  · rfl
  · split
    · rfl
    case isFalse hargs =>
      have hmax := h.maxPhys_eq
      have hlt : physAddr / pmmPageSize < pmm.frameCount := by
        rw [pmmPageSize]
        omega
      rw [strictTest_eq h hlt, strictMarkFrameFree_eq h]
      cases bitmapTest pmm.bitmap (physAddr / pmmPageSize) <;> rfl

theorem strictReserveRange_eq (h : Counted pmm) (base length : Nat) :
    strictReserveRange pmm base length = some (pmmReserveRange pmm base length) := by
  unfold strictReserveRange pmmReserveRange
  split
  · rfl
  · rw [strictMarkRangeUsed_eq h]
    rfl

theorem strictCall_eq {r : PmmRun} (h : Counted r.pmm) (call : PmmCall) :
    strictCall r.pmm call = some ((r.step call).1.pmm, (r.step call).2) := by
  cases call with
  | alloc =>
      rw [strictCall, strictAllocFrame_eq h]
      rfl
  | free physAddr =>
      rw [strictCall, strictFreeFrame_eq h]
      rfl
  | reserve base length =>
      rw [strictCall, strictReserveRange_eq h]
      rfl

theorem strictRegions_eq (h : Counted pmm) (regions : List BootMemRegion) :
    (do
      let pmm ← strictFreeUsableRegions pmm regions
      let pmm ← strictMarkRangeUsed pmm 0 pmmPageSize
      let pmm ← strictReserveOtherRegions pmm regions
      some ({ pmm with initialized := true }, true)) =
      some ({ reserveOtherRegions (markRangeUsed (freeUsableRegions pmm regions) 0 pmmPageSize)
        regions with initialized := true }, true) := by
  have hfreed := h.freeUsableRegions regions
  have hfirst := hfreed.markRangeUsed 0 pmmPageSize
  simp only [strictFreeUsableRegions_eq h, strictMarkRangeUsed_eq hfreed,
    strictReserveOtherRegions_eq hfirst, Option.bind_eq_bind, Option.bind_some]

theorem strictInitFromMap_eq (pmm : PmmState) (regions : Option (List BootMemRegion))
    (storage : Option Bitmap) (storageBytes : Nat) {maxPhysBytes : Nat}
    (hmax : maxPhysBytes < 2 ^ 64) :
    strictInitFromMap pmm regions storage storageBytes maxPhysBytes =
      some (pmmInitFromMap pmm regions storage storageBytes maxPhysBytes) := by
  unfold strictInitFromMap pmmInitFromMap
  rcases regions with _ | map
  · rfl
  rcases storage with _ | bitmapStorage
  · rfl
  dsimp only
  split
  · rfl
  · split
    · rfl
    case isFalse hsize =>
      split
      · rfl
      · have hpages : maxPhysBytes % 4096 = 0 := by
          rw [and_pageMask] at hsize
          omega
        rw [strictFillBitmap_eq bitmapStorage le_rfl]
        exact strictRegions_eq (counted_unmarkedState bitmapStorage hpages hmax) map

end Calls

section Runs

variable {pmm : PmmState} {regions : Option (List BootMemRegion)} {storage : Option Bitmap}
  {storageBytes maxPhysBytes : Nat} {trace : List (PmmCall × PmmResult)} {r : PmmRun}

/-- In every reachable state the counters are the numbers of clear and of set bits and sum up to
the number of frames, the padding is set and the hint is in range.  No call, the
initialisation included, has looked or will look behind the bitmap or has found a zero counter
where it decrements one. -/
theorem run_counted
    (hinit : (pmmInitFromMap pmm regions storage storageBytes maxPhysBytes).2 = true)
    (hmax : maxPhysBytes < 2 ^ 64)
    (hrun : Run pmmCallSystem (startRun pmm regions storage storageBytes maxPhysBytes) trace r) :
    Counted r.pmm ∧ r.pmm.freeFrames + r.pmm.usedFrames = r.pmm.frameCount ∧
      (∀ call, strictCall r.pmm call = some ((r.step call).1.pmm, (r.step call).2)) ∧
      strictInitFromMap pmm regions storage storageBytes maxPhysBytes =
        some (pmmInitFromMap pmm regions storage storageBytes maxPhysBytes) := by
  have hcounted := counted_callRun (counted_startRun hinit hmax) hrun
  refine ⟨hcounted, hcounted.sum, fun call => strictCall_eq hcounted call, ?_⟩
  exact strictInitFromMap_eq pmm regions storage storageBytes hmax

/-- Two frames after an allocation, a free of the first page and a reservation of all memory. -/
def strayRun : PmmRun := after twoFrames [.alloc, .free 0, .reserve 0 8192]

theorem run_counted_strayRun :
    Counted strayRun.pmm ∧
      strictCall strayRun.pmm (.free 4096) =
        some ((strayRun.step (.free 4096)).1.pmm, .flag true) := by
  have hwide : ∀ call ∈ [.alloc, .free 0, .reserve 0 8192], Wide call := by decide
  have hrun := run_after twoFrames hwide
  have hfreed : (strayRun.step (.free 4096)).2 = .flag true := by decide
  obtain ⟨hcounted, -, hstrict, -⟩ := run_counted pmmInitFromMap_twoFrames (by decide) hrun
  refine ⟨hcounted, ?_⟩
  rw [← hfreed]
  exact hstrict (.free 4096)

end Runs

end Mcsos.PmmStrict

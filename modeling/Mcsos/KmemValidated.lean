import Mathlib.Algebra.GroupWithZero.Nat
import Mcsos.KmemHeap
import Mcsos.PointerChain

/-!
The validator on memory with any content.  What it accepts need not be a whole heap: nothing
compares the end of the last block with the end of the heap, and the end of each block is
rounded up before it is compared with the next one.
-/

namespace Mcsos.KmemValidated

open Mcsos.ByteMemory
open Mcsos.PointerChain
open Mcsos.KmemModel
open Mcsos.KmemHeaders
open Mcsos.KmemValidate
open Mcsos.KmemInit
open Mcsos.KmemHeap

/-- The blocks tile the whole range of the heap. -/
structure TilesRange (s : KmemState) (blocks : List Nat) : Prop where
  first : blocks.head? = some s.gHeapBase
  first_prev : blockPrev s.mem s.gHeapBase = 0
  linked : List.IsChain (fun b c => blockNext s.mem b = c ∧ blockPrev s.mem c = b) blocks
  contiguous : List.IsChain (fun b c => b + 48 + blockSize s.mem b = c) blocks
  last_end : ∀ b ∈ blocks.getLast?, b + 48 + blockSize s.mem b = s.gHeapEnd

/-- The bytes of the blocks, headers included. -/
def totalExtent (m : ByteMem) (blocks : List Nat) : Nat :=
  (blocks.map fun b => 48 + blockSize m b).sum

@[simp] theorem totalExtent_nil (m : ByteMem) : totalExtent m [] = 0 := rfl

@[simp] theorem totalExtent_cons (m : ByteMem) (b : Nat) (blocks : List Nat) :
    totalExtent m (b :: blocks) = 48 + blockSize m b + totalExtent m blocks := by
  rw [totalExtent, List.map_cons, List.sum_cons, totalExtent]

/-- What the validator does not check of a header: that it ends in the address space, that its
size keeps the alignment, and that a size without a next header reaches the end of the heap. -/
structure MissedChecks (s : KmemState) (b : Nat) : Prop where
  fits : b + 48 < 2 ^ 64
  aligned : 16 ∣ b + blockSize s.mem b
  reaches : blockNext s.mem b = 0 → s.gHeapEnd ≤ b + 48 + blockSize s.mem b

/-- The checks of one round have passed for every block of the list. -/
def Accepted (s : KmemState) : (prev cursor : Nat) → List Nat → Prop
  | _, _, [] => True
  | prev, cursor, b :: blocks =>
      RoundOk s prev cursor b ∧ Accepted s b (roundedEnd s.mem b) blocks

section Accepted

variable {s : KmemState} {prev cursor : Nat} {blocks : List Nat}

theorem accepted_of_validateLoop {budget cur : Nat}
    (h : kmemValidateLoop s budget prev cursor cur = 0) :
    ∃ blocks, Linked (blockNext s.mem) 0 cur blocks ∧ Accepted s prev cursor blocks := by
  induction budget generalizing prev cursor cur with
  | zero =>
      by_cases hcur : cur = 0
      · exact ⟨[], hcur, trivial⟩
      · obtain ⟨rest, hbudget, -⟩ := kmemValidateLoop_accepts hcur h
        cases hbudget
  | succ budget ih =>
      by_cases hcur : cur = 0
      · exact ⟨[], hcur, trivial⟩
      · obtain ⟨rest, hbudget, hok, hrest⟩ := kmemValidateLoop_accepts hcur h
        obtain rfl := Nat.succ.inj hbudget
        obtain ⟨blocks, hlinked, haccepted⟩ := ih hrest
        exact ⟨cur :: blocks, ⟨rfl, hcur, hlinked⟩, hok, haccepted⟩

theorem Accepted.isChain_linked {cur : Nat} (h : Accepted s prev cursor blocks)
    (hlinked : Linked (blockNext s.mem) 0 cur blocks) :
    List.IsChain (fun b c => blockNext s.mem b = c ∧ blockPrev s.mem c = b) blocks := by
  induction blocks generalizing prev cursor cur with
  | nil => exact List.IsChain.nil
  | cons b blocks ih =>
      obtain ⟨-, -, hlinked⟩ := hlinked
      rcases blocks with _ | ⟨c, blocks⟩
      · exact List.IsChain.singleton _
      · refine List.isChain_cons_cons.mpr ⟨⟨hlinked.1, h.2.1.prev_eq⟩, ?_⟩
        exact ih h.2 hlinked

theorem RoundOk.end_le {cur : Nat} (hok : RoundOk s prev cursor cur)
    (hend : s.gHeapEnd < 2 ^ 64) (hfits : cur + 48 < 2 ^ 64) :
    cur + 48 + blockSize s.mem cur ≤ roundedEnd s.mem cur ∧
      roundedEnd s.mem cur < cur + 48 + blockSize s.mem cur + 16 := by
  have hbelow := hok.below
  have hsize := hok.size_le
  have hne := hok.after_ne
  rw [roundedEnd, kmemPayload_eq hfits] at *
  rw [Nat.mod_eq_of_lt (by omega : cur + 48 + blockSize s.mem cur < 2 ^ 64)] at *
  rw [kmemAlignUpPtr_align] at *
  omega

theorem roundedEnd_dvd (m : ByteMem) (b : Nat) : 16 ∣ roundedEnd m b := by
  rw [roundedEnd, kmemAlignUpPtr_align]
  omega

theorem Accepted.missedChecks {cur : Nat} (h : Accepted s prev cursor blocks)
    (hend : s.gHeapEnd < 2 ^ 64) (hlinked : Linked (blockNext s.mem) 0 cur blocks)
    (hchain : List.IsChain (fun b c => b + 48 + blockSize s.mem b = c) blocks)
    (hlast : ∀ b ∈ blocks.getLast?, b + 48 + blockSize s.mem b = s.gHeapEnd)
    (hfits : ∀ b ∈ blocks, b + 48 < 2 ^ 64) : ∀ b ∈ blocks, MissedChecks s b := by
  induction blocks generalizing prev cursor cur with
  | nil => simp
  | cons b blocks ih =>
      obtain ⟨hok, hrest⟩ := h
      obtain ⟨rfl, -, hnext⟩ := hlinked
      have hb := hfits cur List.mem_cons_self
      have hle := RoundOk.end_le hok hend hb
      have hdvd := roundedEnd_dvd s.mem cur
      rcases blocks with _ | ⟨c, blocks⟩
      · have hstop := hlast cur rfl
        have hafter := hok.after_le
        intro d hd
        rw [List.mem_singleton] at hd
        subst hd
        exact ⟨hb, by omega, fun _ => hstop.ge⟩
      · obtain ⟨hstep, hchain⟩ := List.isChain_cons_cons.mp hchain
        have hc := hrest.1.at_cursor
        rw [List.getLast?_cons_cons] at hlast
        intro d hd
        rcases List.mem_cons.mp hd with rfl | hd
        · refine ⟨hb, by omega, fun hnull => ?_⟩
          exact absurd (hnext.1.symm.trans hnull) hnext.2.1
        · exact ih hrest hnext hchain hlast (fun e he => hfits e (List.mem_cons_of_mem _ he)) d hd

theorem Accepted.tiles {cur : Nat} (h : Accepted s prev cursor blocks)
    (hend : s.gHeapEnd < 2 ^ 64) (hlinked : Linked (blockNext s.mem) 0 cur blocks)
    (hchecks : ∀ b ∈ blocks, MissedChecks s b) :
    List.IsChain (fun b c => b + 48 + blockSize s.mem b = c) blocks ∧
      ∀ b ∈ blocks.getLast?, b + 48 + blockSize s.mem b = s.gHeapEnd := by
  induction blocks generalizing prev cursor cur with
  | nil => exact ⟨List.IsChain.nil, by simp⟩
  | cons b blocks ih =>
      obtain ⟨hok, hrest⟩ := h
      obtain ⟨rfl, -, hnext⟩ := hlinked
      have hb := hchecks cur List.mem_cons_self
      have hle := RoundOk.end_le hok hend hb.fits
      have hafter := hok.after_le
      rcases blocks with _ | ⟨c, blocks⟩
      · have hreaches := hb.reaches hnext
        refine ⟨List.IsChain.singleton _, fun d hd => ?_⟩
        obtain rfl : cur = d := by simpa using hd
        omega
      · obtain ⟨hchain, hlast⟩ :=
          ih hrest hnext fun d hd => hchecks d (List.mem_cons_of_mem _ hd)
        have hc := hrest.1.at_cursor
        have haligned := hb.aligned
        have hdvd := roundedEnd_dvd s.mem cur
        refine ⟨List.isChain_cons_cons.mpr ⟨by omega, hchain⟩, ?_⟩
        rw [List.getLast?_cons_cons]
        exact hlast

end Accepted

theorem extent_of_contiguous {m : ByteMem} {start stop : Nat} {blocks : List Nat}
    (hfirst : blocks.head? = some start)
    (hchain : List.IsChain (fun b c => b + 48 + blockSize m b = c) blocks)
    (hlast : ∀ b ∈ blocks.getLast?, b + 48 + blockSize m b = stop) :
    start + totalExtent m blocks = stop ∧ ∀ b ∈ blocks, b + 48 ≤ stop := by
  induction blocks generalizing start with
  | nil => cases hfirst
  | cons b blocks ih =>
      cases hfirst
      rcases blocks with _ | ⟨c, blocks⟩
      · have hb := hlast b rfl
        simp only [totalExtent_cons, totalExtent_nil, List.mem_cons, List.not_mem_nil, or_false,
          forall_eq]
        omega
      · obtain ⟨hb, hchain⟩ := List.isChain_cons_cons.mp hchain
        rw [List.getLast?_cons_cons] at hlast
        obtain ⟨hextent, hbelow⟩ := ih rfl hchain hlast
        rw [totalExtent_cons]
        refine ⟨by omega, fun d hd => ?_⟩
        rcases List.mem_cons.mp hd with rfl | hd
        · omega
        · exact hbelow d hd

theorem validate_globals {s : KmemState} (hvalid : kmemValidate s = 0) :
    s.gHeapBase ≠ 0 ∧ s.gHeapBase < s.gHeapEnd ∧ s.gHead = s.gHeapBase ∧
      kmemValidateLoop s kmemGuardLimit 0 s.gHeapBase s.gHead = 0 := by
  unfold kmemValidate at hvalid
  split at hvalid
  · cases hvalid
  case isFalse hglobals =>
    split at hvalid
    · cases hvalid
    case isFalse hhead =>
      simp only [not_or, not_le] at hglobals
      exact ⟨hglobals.2.1, hglobals.2.2.1, not_not.mp hhead, hvalid⟩

/-- The list of a validated heap tiles it exactly when its headers pass the checks that the
validator does not make. -/
theorem validate_tilesRange_iff {s : KmemState} (hvalid : kmemValidate s = 0)
    (hend : s.gHeapEnd < 2 ^ 64) :
    ∃ blocks, Linked (blockNext s.mem) 0 s.gHead blocks ∧
      (TilesRange s blocks ∧ totalExtent s.mem blocks = s.gHeapEnd - s.gHeapBase ↔
        ∀ b ∈ blocks, MissedChecks s b) := by
  obtain ⟨hpos, hrange, hhead, hloop⟩ := validate_globals hvalid
  obtain ⟨blocks, hlinked, haccepted⟩ := accepted_of_validateLoop hloop
  refine ⟨blocks, hlinked, ?_⟩
  constructor
  · rintro ⟨htiles, -⟩
    obtain ⟨-, hbelow⟩ := extent_of_contiguous htiles.first htiles.contiguous htiles.last_end
    refine haccepted.missedChecks hend hlinked htiles.contiguous htiles.last_end fun b hb => ?_
    exact (hbelow b hb).trans_lt hend
  · intro hchecks
    obtain ⟨hchain, hlast⟩ := haccepted.tiles hend hlinked hchecks
    have hnonempty : blocks.head? = some s.gHeapBase ∧ blockPrev s.mem s.gHeapBase = 0 := by
      rcases blocks with _ | ⟨b, blocks⟩
      · exact absurd (hhead.symm.trans hlinked) hpos
      · rw [← hhead, hlinked.1]
        exact ⟨rfl, haccepted.1.prev_eq⟩
    obtain ⟨hfirst, hprev⟩ := hnonempty
    have hextent := (extent_of_contiguous hfirst hchain hlast).1
    refine ⟨⟨hfirst, hprev, haccepted.isChain_linked hlinked, hchain, hlast⟩, ?_⟩
    omega

theorem validate_tilesRange_iff_allocatedRun :
    kmemValidate allocatedRun.1.heap = 0 ∧ TilesRange allocatedRun.1.heap [4096, 4176] := by
  have hvalid : kmemValidate allocatedRun.1.heap = 0 := by decide
  obtain ⟨blocks, hlinked, hiff⟩ := validate_tilesRange_iff hvalid (by decide)
  have htwo : Linked (blockNext allocatedRun.1.heap.mem) 0 allocatedRun.1.heap.gHead
      [4096, 4176] :=
    ⟨by decide, by decide, by decide, by decide,
      show blockNext allocatedRun.1.heap.mem 4176 = 0 by decide⟩
  obtain rfl := hlinked.unique htwo
  have hfirst : MissedChecks allocatedRun.1.heap 4096 :=
    ⟨by decide, by decide, fun hnull => absurd hnull (by decide)⟩
  have hsecond : MissedChecks allocatedRun.1.heap 4176 :=
    ⟨by decide, by decide, fun _ => by decide⟩
  refine ⟨hvalid, (hiff.mpr ?_).1⟩
  simpa using ⟨hfirst, hsecond⟩

/-- A heap of 256 bytes whose only header got a size of 16. -/
def shrunkenHeap : KmemState :=
  { (kmemInit unusedHeap 4096 256).1 with
    mem := storeSize (kmemInit unusedHeap 4096 256).1.mem 4096 16 }

/-- The validator accepts a list from which most of the heap is missing. -/
theorem validate_shrunkenHeap :
    kmemValidate shrunkenHeap = 0 ∧
      ∀ blocks, Linked (blockNext shrunkenHeap.mem) 0 shrunkenHeap.gHead blocks →
        ¬TilesRange shrunkenHeap blocks := by
  refine ⟨by decide, fun blocks hlinked htiles => ?_⟩
  have hone : Linked (blockNext shrunkenHeap.mem) 0 shrunkenHeap.gHead [4096] :=
    ⟨rfl, by decide, show blockNext shrunkenHeap.mem 4096 = 0 by decide⟩
  obtain rfl := hlinked.unique hone
  have hend := htiles.last_end 4096 rfl
  exact absurd hend (by decide)

def strictAdd (a b : Nat) : Option Nat := if a + b < 2 ^ 64 then some (a + b) else none

def strictSub (a b : Nat) : Option Nat := if b ≤ a then some (a - b) else none

/-- A field of the header at `block`. -/
def strictRead (s : KmemState) (field : ByteMem → Nat → Nat) (block : Nat) : Option Nat :=
  if s.gHeapBase ≤ block ∧ block + sizeofKmemBlock ≤ s.gHeapEnd then some (field s.mem block)
  else none

def strictPayload (block : Nat) : Option Nat := strictAdd block sizeofKmemBlock

def strictAlignUpPtr (v align : Nat) : Option Nat := do
  let sum ← strictAdd v (align - 1)
  some (sum &&& (2 ^ 64 - 1 - (align - 1)))

/-- The loop of `kmem_validate` once more, but a header that is not wholly inside the heap cannot be
read, an addition or subtraction that wraps has no result, and neither has a loop that is not
over after `fuel` rounds. -/
def strictValidateLoop (s : KmemState) : (fuel guard prev cursor cur : Nat) → Option Int
  | 0, _, _, _, _ => none
  | fuel + 1, guard, prev, cursor, cur =>
      if cur = 0 then some 0
      else if kmemGuardLimit < guard + 1 then some (-3)
      else if cur ≠ cursor then some (-4)
      else if cur < s.gHeapBase then some (-5)
      else do
        let headerEnd ← strictAdd cur sizeofKmemBlock
        if s.gHeapEnd < headerEnd then some (-5)
        else
          let magic ← strictRead s blockMagic cur
          if magic ≠ kmemMagic then some (-6)
          else
            let curPrev ← strictRead s blockPrev cur
            if curPrev ≠ prev then some (-7)
            else
              let size ← strictRead s blockSize cur
              let payload ← strictPayload cur
              let room ← strictSub s.gHeapEnd payload
              if room < size then some (-8)
              else
                let payload ← strictPayload cur
                let payloadEnd ← strictAdd payload size
                let cursor ← strictAlignUpPtr payloadEnd kmemAlign
                if cursor = 0 ∨ s.gHeapEnd < cursor then some (-9)
                else
                  let next ← strictRead s blockNext cur
                  strictValidateLoop s fuel (guard + 1) cur cursor next

def strictValidate (s : KmemState) (fuel : Nat) : Option Int :=
  if s.gInitialized = false ∨ s.gHeapBase = 0 ∨ s.gHeapEnd ≤ s.gHeapBase ∨ s.gHead = 0 then
    some (-1)
  else if s.gHead ≠ s.gHeapBase then some (-2)
  else strictValidateLoop s fuel 0 0 s.gHeapBase s.gHead

section Strict

variable {s : KmemState}

theorem strictAdd_eq {a b : Nat} (h : a + b < 2 ^ 64) : strictAdd a b = some (a + b) := if_pos h

theorem strictSub_eq {a b : Nat} (h : b ≤ a) : strictSub a b = some (a - b) := if_pos h

theorem strictRead_eq {block : Nat} (field : ByteMem → Nat → Nat) (hlow : s.gHeapBase ≤ block)
    (hhigh : block + 48 ≤ s.gHeapEnd) : strictRead s field block = some (field s.mem block) :=
  if_pos ⟨hlow, hhigh⟩

theorem strictAlignUpPtr_eq {v : Nat} (h : v + 15 < 2 ^ 64) :
    strictAlignUpPtr v kmemAlign = some (kmemAlignUpPtr v kmemAlign) := by
  have hsum : strictAdd v (kmemAlign - 1) = some (v + (kmemAlign - 1)) := strictAdd_eq h
  have hmod : (v + (kmemAlign - 1)) % 2 ^ 64 = v + (kmemAlign - 1) := Nat.mod_eq_of_lt h
  rw [strictAlignUpPtr, hsum, kmemAlignUpPtr, hmod]
  rfl

/-- As long as the cursor is inside the heap, no round reads elsewhere or wraps. -/
theorem strictValidateLoop_eq (hend : s.gHeapEnd + 64 ≤ 2 ^ 64)
    {fuel guard budget prev cursor cur : Nat} (hguard : guard + budget = kmemGuardLimit)
    (hfuel : budget < fuel) (hcursor : cursor ≤ s.gHeapEnd) :
    strictValidateLoop s fuel guard prev cursor cur =
      some (kmemValidateLoop s budget prev cursor cur) := by
  induction fuel generalizing guard budget prev cursor cur with
  | zero => omega
  | succ fuel ih =>
      rw [strictValidateLoop]
      by_cases hcur : cur = 0
      · rw [if_pos hcur, hcur, kmemValidateLoop_null]
      rw [if_neg hcur]
      rcases budget with _ | budget
      · rw [if_pos (by omega), kmemValidateLoop_limit hcur]
      rw [if_neg (by omega), kmemValidateLoop, if_neg hcur]
      dsimp only
      by_cases hat : cur ≠ cursor
      · rw [if_pos hat, if_pos hat]
      rw [if_neg hat, if_neg hat]
      rw [not_not] at hat
      have hheader : (cur + sizeofKmemBlock) % 2 ^ 64 = cur + 48 := by
        show (cur + 48) % 2 ^ 64 = cur + 48
        omega
      have hpayload : strictPayload cur = some (cur + 48) :=
        strictAdd_eq (show cur + 48 < 2 ^ 64 by omega)
      have hadd : strictAdd cur sizeofKmemBlock = some (cur + 48) := hpayload
      rw [hheader, hadd]
      by_cases hlow : cur < s.gHeapBase
      · rw [if_pos hlow, if_pos (.inl hlow)]
      rw [if_neg hlow, Option.bind_eq_bind, Option.bind_some]
      by_cases hhigh : s.gHeapEnd < cur + 48
      · rw [if_pos hhigh, if_pos (.inr hhigh)]
      have hread : ∀ field, strictRead s field cur = some (field s.mem cur) :=
        fun field => strictRead_eq field (by omega) (by omega)
      rw [if_neg hhigh, if_neg (not_or.mpr ⟨hlow, hhigh⟩), hread, Option.bind_some]
      by_cases hmagic : blockMagic s.mem cur ≠ kmemMagic
      · rw [if_pos hmagic, if_pos hmagic]
      rw [if_neg hmagic, if_neg hmagic, hread, Option.bind_some]
      by_cases hprev : blockPrev s.mem cur ≠ prev
      · rw [if_pos hprev, if_pos hprev]
      have hroom : strictSub s.gHeapEnd (cur + 48) = some (s.gHeapEnd - (cur + 48)) :=
        strictSub_eq (by omega)
      have hroom' : (s.gHeapEnd + 2 ^ 64 - kmemPayload cur) % 2 ^ 64 =
          s.gHeapEnd - (cur + 48) := by
        rw [kmemPayload_eq (by omega)]
        omega
      rw [if_neg hprev, if_neg hprev, hread, Option.bind_some, hpayload, Option.bind_some, hroom,
        Option.bind_some, hroom']
      by_cases hsize : s.gHeapEnd - (cur + 48) < blockSize s.mem cur
      · rw [if_pos hsize, if_pos hsize]
      have hafter : strictAdd (cur + 48) (blockSize s.mem cur) =
          some (cur + 48 + blockSize s.mem cur) := strictAdd_eq (by omega)
      have hafter' : (kmemPayload cur + blockSize s.mem cur) % 2 ^ 64 =
          cur + 48 + blockSize s.mem cur := by
        rw [kmemPayload_eq (by omega)]
        omega
      rw [if_neg hsize, if_neg hsize, Option.bind_some, hafter, Option.bind_some,
        strictAlignUpPtr_eq (by omega), Option.bind_some, hafter']
      split
      · rfl
      case isFalse hround =>
        rw [not_or, not_lt] at hround
        rw [hread, Option.bind_some]
        exact ih (by omega) (by omega) hround.2

theorem strictValidate_of_end (hend : s.gHeapEnd + 64 ≤ 2 ^ 64) {fuel : Nat}
    (hfuel : kmemGuardLimit < fuel) : strictValidate s fuel = some (kmemValidate s) := by
  rw [strictValidate, kmemValidate]
  split
  · rfl
  case isFalse hglobals =>
    split
    · rfl
    · simp only [not_or, not_le] at hglobals
      exact strictValidateLoop_eq hend (Nat.zero_add _) hfuel hglobals.2.2.1.le

/-- On a heap range that a successful initialisation has set, over memory with any content, the
strict validator computes what the validator does: the loop is over after at most
`kmemGuardLimit + 1` rounds, headers are read inside the heap only, and nothing wraps. -/
theorem strictValidate_eq {base bytes : Nat} (hinit : (kmemInit s base bytes).2 = 0)
    (hend : base + bytes ≤ 2 ^ 64 - 4096) (m : ByteMem) {fuel : Nat}
    (hfuel : kmemGuardLimit < fuel) :
    strictValidate { (kmemInit s base bytes).1 with mem := m } fuel =
      some (kmemValidate { (kmemInit s base bytes).1 with mem := m }) := by
  have hheapEnd : (kmemInit s base bytes).1.gHeapEnd + 64 ≤ 2 ^ 64 := by
    rw [kmemInit_eq (by omega) (by omega) hinit]
    obtain ⟨hstop, -⟩ := heapStop_spec base bytes
    show heapStop base bytes % 2 ^ 64 + 64 ≤ 2 ^ 64
    omega
  refine strictValidate_of_end ?_ hfuel
  exact hheapEnd

theorem strictValidate_eq_ones :
    strictValidate { (kmemInit unusedHeap 4096 256).1 with mem := fun _ => 0xff }
        (kmemGuardLimit + 1) =
      some (kmemValidate { (kmemInit unusedHeap 4096 256).1 with mem := fun _ => 0xff }) :=
  strictValidate_eq (by decide) (by decide) _ (Nat.lt_succ_self _)

end Strict

end Mcsos.KmemValidated

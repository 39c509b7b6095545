import Mathlib.Data.UInt
import Mcsos.TableTree
import Mcsos.VmmModel
import Mcsos.WordArithmetic

namespace Mcsos.VmmTables

open Mcsos.TableTree
open Mcsos.VmmModel
open Mcsos.WordArithmetic

/-- The entry for a table. -/
def tableEntry (paddr : UInt64) : UInt64 :=
  (paddr &&& vmmPteAddrMask) ||| vmmPtePresent ||| vmmPteWritable

/-- The entry for a page. -/
def pageEntry (paddr flags : UInt64) : UInt64 :=
  (paddr &&& vmmPteAddrMask) ||| vmmPtePresent ||| (flags &&& allowedFlags)

theorem tableEntry_present (paddr : UInt64) : tableEntry paddr &&& vmmPtePresent ≠ 0 := by
  rw [tableEntry, or_and_distrib, or_and_distrib, UInt64.and_assoc,
    show vmmPteAddrMask &&& vmmPtePresent = 0 from rfl, UInt64.and_zero]
  decide

theorem tableEntry_huge (paddr : UInt64) : tableEntry paddr &&& vmmPteHuge = 0 := by
  rw [tableEntry, or_and_distrib, or_and_distrib, UInt64.and_assoc,
    show vmmPteAddrMask &&& vmmPteHuge = 0 from rfl, UInt64.and_zero]
  rfl

theorem tableEntry_addr (paddr : UInt64) :
    tableEntry paddr &&& vmmPteAddrMask = paddr &&& vmmPteAddrMask := by
  rw [tableEntry, or_and_distrib, or_and_distrib, UInt64.and_assoc, UInt64.and_self,
    show vmmPtePresent &&& vmmPteAddrMask = 0 from rfl,
    show vmmPteWritable &&& vmmPteAddrMask = 0 from rfl, UInt64.or_zero, UInt64.or_zero]

theorem pageEntry_present (paddr flags : UInt64) :
    pageEntry paddr flags &&& vmmPtePresent ≠ 0 := by
  rw [pageEntry, or_and_distrib, or_and_distrib, UInt64.and_assoc, UInt64.and_assoc,
    show vmmPteAddrMask &&& vmmPtePresent = 0 from rfl,
    show allowedFlags &&& vmmPtePresent = 0 from rfl, UInt64.and_zero, UInt64.and_zero]
  decide

theorem pageEntry_addr (paddr flags : UInt64) :
    pageEntry paddr flags &&& vmmPteAddrMask = paddr &&& vmmPteAddrMask := by
  rw [pageEntry, or_and_distrib, or_and_distrib, UInt64.and_assoc, UInt64.and_self,
    UInt64.and_assoc, show vmmPtePresent &&& vmmPteAddrMask = 0 from rfl,
    show allowedFlags &&& vmmPteAddrMask = 0 from rfl, UInt64.and_zero, UInt64.or_zero,
    UInt64.or_zero]

theorem pageEntry_flags (paddr flags : UInt64) :
    pageEntry paddr flags &&& ~~~vmmPteAddrMask = vmmPtePresent ||| (flags &&& allowedFlags) := by
  rw [pageEntry, or_and_distrib, or_and_distrib, UInt64.and_assoc, UInt64.and_not_self,
    UInt64.and_zero, UInt64.and_assoc,
    show vmmPtePresent &&& ~~~vmmPteAddrMask = vmmPtePresent from rfl,
    show allowedFlags &&& ~~~vmmPteAddrMask = allowedFlags from rfl, UInt64.zero_or]

theorem vmmIsAligned4k_iff {value : UInt64} :
    vmmIsAligned4k value = true ↔ value.toNat % 4096 = 0 := by
  have hmod : (value &&& (4096 - 1)).toNat = value.toNat % 4096 := by
    rw [UInt64.toNat_and]
    exact Nat.and_two_pow_sub_one_eq_mod value.toNat 12
  rw [vmmIsAligned4k, beq_iff_eq, ← UInt64.toNat_inj, hmod]
  rfl

theorem and_addrMask {value : UInt64} (haligned : vmmIsAligned4k value = true)
    (hlt : value < 2 ^ 52) : value &&& vmmPteAddrMask = value := by
  rw [vmmIsAligned4k_iff] at haligned
  refine UInt64.toNat_inj.mp ?_
  rw [UInt64.toNat_and]
  refine (and_highMask 12 52 (by decide) hlt).trans ?_
  exact Nat.div_mul_cancel (Nat.dvd_of_mod_eq_zero haligned)

theorem vmmIsCanonical_iff {vaddr : UInt64} :
    vmmIsCanonical vaddr = true ↔ vaddr.toNat < 2 ^ 47 ∨ 2 ^ 64 - 2 ^ 47 ≤ vaddr.toNat := by
  have hvaddr := vaddr.toNat_lt
  have hsign : ((vaddr >>> 47) &&& 1).toNat = vaddr.toNat / 2 ^ 47 % 2 := by
    rw [UInt64.toNat_and, UInt64.toNat_shiftRight, Nat.shiftRight_eq_div_pow]
    exact Nat.and_two_pow_sub_one_eq_mod _ 1
  have hupper : (vaddr >>> 48).toNat = vaddr.toNat / 2 ^ 48 := by
    rw [UInt64.toNat_shiftRight, Nat.shiftRight_eq_div_pow]
    rfl
  have hzero : (0 : UInt64).toNat = 0 := rfl
  have hones : (0xffff : UInt64).toNat = 0xffff := rfl
  simp only [vmmIsCanonical]
  split
  case isTrue hhigh =>
    rw [ne_eq, ← UInt64.toNat_inj, hsign, hzero] at hhigh
    rw [beq_iff_eq, ← UInt64.toNat_inj, hupper, hones]
    omega
  case isFalse hlow =>
    rw [not_not, ← UInt64.toNat_inj, hsign, hzero] at hlow
    rw [beq_iff_eq, ← UInt64.toNat_inj, hupper, hzero]
    omega

theorem val_idx {shift : UInt64} (h : shift.toNat < 64) (vaddr : UInt64) :
    (idx shift vaddr).val = vaddr.toNat / 2 ^ shift.toNat % 512 := by
  change ((vaddr >>> shift) &&& 0x1ff).toNat = _
  rw [UInt64.toNat_and, UInt64.toNat_shiftRight, Nat.mod_eq_of_lt h, Nat.shiftRight_eq_div_pow]
  exact Nat.and_two_pow_sub_one_eq_mod _ 9

/-- The addresses of pages. -/
def IsPage (vaddr : UInt64) : Prop :=
  vmmIsCanonical vaddr = true ∧ vmmIsAligned4k vaddr = true

instance (vaddr : UInt64) : Decidable (IsPage vaddr) :=
  inferInstanceAs (Decidable (_ ∧ _))

abbrev PageAddress := { vaddr : UInt64 // IsPage vaddr }

/-- The way from the root to the last table of an address. -/
def tablePath (vaddr : UInt64) : List (Fin 512) := [idxPml4 vaddr, idxPdpt vaddr, idxPd vaddr]

theorem pageAddress_ext {first second : UInt64} (hfirst : IsPage first) (hsecond : IsPage second)
    (hpath : tablePath first = tablePath second) (hlast : idxPt first = idxPt second) :
    first = second := by
  simp only [tablePath, List.cons.injEq, and_true] at hpath
  obtain ⟨hpml4, hpdpt, hpd⟩ := hpath
  have hpml4 := congrArg Fin.val hpml4
  have hpdpt := congrArg Fin.val hpdpt
  have hpd := congrArg Fin.val hpd
  have hpt := congrArg Fin.val hlast
  obtain ⟨hcanonical, haligned⟩ := hfirst
  obtain ⟨hcanonical', haligned'⟩ := hsecond
  rw [vmmIsCanonical_iff] at hcanonical hcanonical'
  rw [vmmIsAligned4k_iff] at haligned haligned'
  simp only [idxPml4, idxPdpt, idxPd, idxPt] at hpml4 hpdpt hpd hpt
  rw [val_idx (by decide), val_idx (by decide)] at hpml4 hpdpt hpd hpt
  simp only [UInt64.reduceToNat] at hpml4 hpdpt hpd hpt
  have hlt := first.toNat_lt
  have hlt' := second.toNat_lt
  refine UInt64.toNat_inj.mp ?_
  omega

section Frames

variable {τ σ : Type}

/-- An entry of the table in a frame.  There are none in a frame without a table. -/
def entryOf (space : VmmSpace τ σ) (mem : Memory τ) (frame : UInt64) (i : Fin 512) : UInt64 :=
  match tableFromPhys space frame with
  | some table => mem table i
  | none => 0

/-- The frame that an entry refers to. -/
def nextFrame (space : VmmSpace τ σ) (mem : Memory τ) (frame : UInt64) (i : Fin 512) :
    Option UInt64 :=
  if entryOf space mem frame i &&& vmmPtePresent = 0 then none
  else some (entryOf space mem frame i &&& vmmPteAddrMask)

/-- The frame at the end of a path from the root. -/
def frameAt (space : VmmSpace τ σ) (mem : Memory τ) (path : List (Fin 512)) : Option UInt64 :=
  descend (nextFrame space mem) space.rootPaddr path

def IsTableFrame (space : VmmSpace τ σ) (mem : Memory τ) (frame : UInt64) : Prop :=
  ∃ path, path.length ≤ 3 ∧ frameAt space mem path = some frame

/-- The page that an entry of a last table stands for. -/
def pageOf (entry : UInt64) : Option (UInt64 × UInt64) :=
  if entry &&& vmmPtePresent = 0 then none
  else some (entry &&& vmmPteAddrMask, entry &&& ~~~vmmPteAddrMask)

/-- The page that an address is mapped to. -/
def pageAt (space : VmmSpace τ σ) (mem : Memory τ) (vaddr : UInt64) : Option (UInt64 × UInt64) :=
  (frameAt space mem (tablePath vaddr)).bind fun frame =>
    pageOf (entryOf space mem frame (idxPt vaddr))

/-- Different frames hold different tables. -/
def DistinctTables (space : VmmSpace τ σ) : Prop :=
  ∀ frame frame' table, tableFromPhys space frame = some table →
    tableFromPhys space frame' = some table → frame = frame'

/-- The tables are a tree, all of them are in memory, and there are no huge pages. -/
structure TablesInv (space : VmmSpace τ σ) (mem : Memory τ) : Prop where
  tree : IsTree (nextFrame space mem) space.rootPaddr 3
  backed : ∀ path frame, path.length ≤ 3 → frameAt space mem path = some frame →
    ∃ table, tableFromPhys space frame = some table
  small : ∀ path frame i, path.length < 3 → frameAt space mem path = some frame →
    entryOf space mem frame i &&& vmmPtePresent ≠ 0 →
      entryOf space mem frame i &&& vmmPteHuge = 0

/-- The entries above the last level have been made by `get_or_alloc_next_table`. -/
def PlainTables (space : VmmSpace τ σ) (mem : Memory τ) : Prop :=
  ∀ path frame i, path.length < 3 → frameAt space mem path = some frame →
    entryOf space mem frame i &&& vmmPtePresent ≠ 0 →
      ∃ paddr, entryOf space mem frame i = tableEntry paddr

variable {space : VmmSpace τ σ} {mem mem' : Memory τ}

theorem tableFromPhys_eq_some_iff {physToVirt : UInt64 → Option τ}
    (h : space.physToVirt = some physToVirt) {frame : UInt64} {table : τ} :
    tableFromPhys space frame = some table ↔
      vmmIsAligned4k frame = true ∧ physToVirt frame = some table := by
  rw [tableFromPhys, h]
  cases vmmIsAligned4k frame <;> simp

theorem vmmSpaceInit_ok {pointer : Bool} {rootPaddr : UInt64}
    {allocFrame : Option (σ → Memory τ → σ × Memory τ × UInt64)}
    {freeFrame : Option (σ → UInt64 → σ)} {physToVirt : Option (UInt64 → Option τ)}
    (h : vmmSpaceInit pointer rootPaddr allocFrame freeFrame physToVirt = .ok space) :
    space.rootPaddr = rootPaddr ∧ vmmIsAligned4k space.rootPaddr = true ∧
      space.physToVirt = physToVirt ∧ space.freeFrame = freeFrame := by
  rw [vmmSpaceInit] at h
  split at h
  · cases h
  case isFalse hvalid =>
    simp only [not_or, Bool.not_eq_false] at hvalid
    cases h
    exact ⟨rfl, hvalid.2.2, rfl, rfl⟩

theorem entryOf_eq {frame : UInt64} {table : τ} (h : tableFromPhys space frame = some table)
    (mem : Memory τ) (i : Fin 512) : entryOf space mem frame i = mem table i := by
  rw [entryOf, h]

theorem zeroRoot {rootPaddr : UInt64}
    {allocFrame : Option (σ → Memory τ → σ × Memory τ × UInt64)}
    {freeFrame : Option (σ → UInt64 → σ)} {physToVirt : UInt64 → Option τ}
    (hinit : vmmSpaceInit true rootPaddr allocFrame freeFrame (some physToVirt) = .ok space)
    (hdistinct : ∀ frame frame' table, vmmIsAligned4k frame = true → vmmIsAligned4k frame' = true →
      physToVirt frame = some table → physToVirt frame' = some table → frame = frame')
    {mem : Memory τ} {root : τ} (hroot : physToVirt rootPaddr = some root)
    (hzero : mem root = vmmZeroPage) :
    DistinctTables space ∧ tableFromPhys space space.rootPaddr = some root ∧
      ∀ i, entryOf space mem space.rootPaddr i = 0 := by
  obtain ⟨rfl, haligned, hvirt, -⟩ := vmmSpaceInit_ok hinit
  have htable : tableFromPhys space space.rootPaddr = some root :=
    (tableFromPhys_eq_some_iff hvirt).mpr ⟨haligned, hroot⟩
  refine ⟨?_, htable, ?_⟩
  · intro frame frame' table htable htable'
    obtain ⟨hframe, htable⟩ := (tableFromPhys_eq_some_iff hvirt).mp htable
    obtain ⟨hframe', htable'⟩ := (tableFromPhys_eq_some_iff hvirt).mp htable'
    exact hdistinct frame frame' table hframe hframe' htable htable'
  · intro i
    rw [entryOf_eq htable, hzero]
    rfl

theorem frameAt_concat (path : List (Fin 512)) (i : Fin 512) :
    frameAt space mem (path ++ [i]) =
      (frameAt space mem path).bind fun frame => nextFrame space mem frame i :=
  descend_concat space.rootPaddr path i

theorem pageOf_pageEntry {paddr : UInt64} (haligned : vmmIsAligned4k paddr = true)
    (hlt : paddr < 2 ^ 52) (flags : UInt64) :
    pageOf (pageEntry paddr flags) = some (paddr, vmmPtePresent ||| (flags &&& allowedFlags)) := by
  rw [pageOf, if_neg (pageEntry_present paddr flags), pageEntry_addr, pageEntry_flags,
    and_addrMask haligned hlt]

/-- Memory in which the tables of the space are the same. -/
def SameTables (space : VmmSpace τ σ) (mem mem' : Memory τ) : Prop :=
  ∀ frame, IsTableFrame space mem frame → ∀ i,
    entryOf space mem' frame i = entryOf space mem frame i

theorem frameAt_congr
    (h : ∀ path frame, path.length < 3 → frameAt space mem path = some frame → ∀ i,
      entryOf space mem' frame i = entryOf space mem frame i) :
    ∀ path, path.length ≤ 3 → frameAt space mem' path = frameAt space mem path := by
  refine descend_congr fun path frame hlen hframe i => ?_
  rw [nextFrame, nextFrame, h path frame hlen hframe i]

theorem TablesInv.congr (hinv : TablesInv space mem)
    (h : ∀ path frame, path.length < 3 → frameAt space mem path = some frame → ∀ i,
      entryOf space mem' frame i = entryOf space mem frame i) : TablesInv space mem' := by
  have hframes := frameAt_congr h
  refine ⟨hinv.tree.congr hframes, ?_, ?_⟩
  · intro path frame hlen hframe
    rw [hframes path hlen] at hframe
    exact hinv.backed path frame hlen hframe
  · intro path frame i hlen hframe
    rw [hframes path (Nat.le_of_lt hlen)] at hframe
    rw [h path frame hlen hframe i]
    exact hinv.small path frame i hlen hframe

theorem PlainTables.congr (hplain : PlainTables space mem)
    (h : ∀ path frame, path.length < 3 → frameAt space mem path = some frame → ∀ i,
      entryOf space mem' frame i = entryOf space mem frame i) : PlainTables space mem' := by
  intro path frame i hlen hframe
  rw [frameAt_congr h path (Nat.le_of_lt hlen)] at hframe
  rw [h path frame hlen hframe i]
  exact hplain path frame i hlen hframe

theorem SameTables.frameAt (h : SameTables space mem mem') {path : List (Fin 512)}
    (hlen : path.length ≤ 3) :
    VmmTables.frameAt space mem' path = VmmTables.frameAt space mem path :=
  frameAt_congr (fun path frame hlt hframe => h frame ⟨path, Nat.le_of_lt hlt, hframe⟩) path hlen

theorem SameTables.tablesInv (h : SameTables space mem mem') (hinv : TablesInv space mem) :
    TablesInv space mem' :=
  hinv.congr fun path frame hlt hframe => h frame ⟨path, Nat.le_of_lt hlt, hframe⟩

theorem SameTables.plainTables (h : SameTables space mem mem') (hplain : PlainTables space mem) :
    PlainTables space mem' :=
  hplain.congr fun path frame hlt hframe => h frame ⟨path, Nat.le_of_lt hlt, hframe⟩

theorem SameTables.pageAt (h : SameTables space mem mem') (vaddr : UInt64) :
    VmmTables.pageAt space mem' vaddr = VmmTables.pageAt space mem vaddr := by
  have hlen : (tablePath vaddr).length ≤ 3 := Nat.le_refl 3
  rw [VmmTables.pageAt, VmmTables.pageAt, h.frameAt hlen]
  rcases hframe : VmmTables.frameAt space mem (tablePath vaddr) with _ | frame
  · rfl
  · rw [Option.bind_some, Option.bind_some, h frame ⟨_, hlen, hframe⟩]

theorem frameAt_zero (hzero : ∀ i, entryOf space mem space.rootPaddr i = 0)
    {path : List (Fin 512)} {frame : UInt64} (h : frameAt space mem path = some frame) :
    path = [] ∧ frame = space.rootPaddr := by
  rcases path with _ | ⟨i, path⟩
  · cases h
    exact ⟨rfl, rfl⟩
  · rw [frameAt, descend, nextFrame, hzero i, if_pos UInt64.zero_and] at h
    cases h

theorem tablesInv_zero (hroot : ∃ table, tableFromPhys space space.rootPaddr = some table)
    (hzero : ∀ i, entryOf space mem space.rootPaddr i = 0) : TablesInv space mem := by
  refine ⟨?_, ?_, ?_⟩
  · intro path path' frame _ _ hpath hpath'
    rw [(frameAt_zero hzero hpath).1, (frameAt_zero hzero hpath').1]
  · intro path frame _ hframe
    rwa [(frameAt_zero hzero hframe).2]
  · intro path frame i _ hframe hpresent
    rw [(frameAt_zero hzero hframe).2, hzero i] at hpresent
    exact absurd UInt64.zero_and hpresent

theorem plainTables_zero (hzero : ∀ i, entryOf space mem space.rootPaddr i = 0) :
    PlainTables space mem := by
  intro path frame i _ hframe hpresent
  rw [(frameAt_zero hzero hframe).2, hzero i] at hpresent
  exact absurd UInt64.zero_and hpresent

theorem pageAt_zero (hzero : ∀ i, entryOf space mem space.rootPaddr i = 0) (vaddr : UInt64) :
    pageAt space mem vaddr = none := by
  rw [pageAt]
  rcases hframe : frameAt space mem (tablePath vaddr) with _ | frame
  · rfl
  · cases (frameAt_zero hzero hframe).1

/-- What is known when a new table is entered at the end of a path. -/
structure NewTable (space : VmmSpace τ σ) (mem : Memory τ) (path : List (Fin 512)) (i : Fin 512)
    (frame : UInt64) (table : τ) (newPaddr : UInt64) (newTable : τ) : Prop where
  above : path.length < 3
  frame_eq : frameAt space mem path = some frame
  table_eq : tableFromPhys space frame = some table
  absent : entryOf space mem frame i &&& vmmPtePresent = 0
  new_eq : tableFromPhys space newPaddr = some newTable
  addr : newPaddr &&& vmmPteAddrMask = newPaddr
  fresh : ¬IsTableFrame space mem newPaddr

theorem SameTables.newTable (h : SameTables space mem mem') {path : List (Fin 512)}
    (hlen : path.length < 3) {frame : UInt64}
    (hframe : VmmTables.frameAt space mem path = some frame) {table : τ}
    (htable : tableFromPhys space frame = some table) {i : Fin 512}
    (habsent : entryOf space mem frame i &&& vmmPtePresent = 0) {newPaddr : UInt64} {newTable : τ}
    (hnew : tableFromPhys space newPaddr = some newTable)
    (haddr : newPaddr &&& vmmPteAddrMask = newPaddr) (hfresh : ¬IsTableFrame space mem newPaddr) :
    NewTable space mem' path i frame table newPaddr newTable := by
  refine ⟨hlen, ?_, htable, ?_, hnew, haddr, ?_⟩
  · rw [h.frameAt (Nat.le_of_lt hlen), hframe]
  · rw [h frame ⟨path, Nat.le_of_lt hlen, hframe⟩ i, habsent]
  · rintro ⟨path', hlen', hframe'⟩
    rw [h.frameAt hlen'] at hframe'
    exact hfresh ⟨path', hlen', hframe'⟩

theorem NewTable.ne {path : List (Fin 512)} {i : Fin 512} {frame newPaddr : UInt64}
    {table newTable : τ} (h : NewTable space mem path i frame table newPaddr newTable)
    {path' : List (Fin 512)} {frame' : UInt64} (hlen : path'.length ≤ 3)
    (hframe' : frameAt space mem path' = some frame') : frame' ≠ newPaddr := by
  rintro rfl
  exact h.fresh ⟨path', hlen, hframe'⟩

variable [DecidableEq τ]

theorem entryOf_update (hdistinct : DistinctTables space) {frame : UInt64} {table : τ}
    (htable : tableFromPhys space frame = some table) (mem : Memory τ) (page : Page)
    (frame' : UInt64) (j : Fin 512) :
    entryOf space (Function.update mem table page) frame' j =
      if frame' = frame then page j else entryOf space mem frame' j := by
  rcases hother : tableFromPhys space frame' with _ | table'
  · have hne : frame' ≠ frame := by
      rintro rfl
      rw [htable] at hother
      cases hother
    rw [if_neg hne, entryOf, entryOf, hother]
  · rw [entryOf_eq hother, entryOf_eq hother]
    rcases eq_or_ne table' table with rfl | hne
    · rw [Function.update_self, if_pos (hdistinct _ _ _ hother htable)]
    · rw [Function.update_of_ne hne, if_neg]
      rintro rfl
      rw [htable] at hother
      exact hne (Option.some.inj hother).symm

theorem entryOf_setEntry (hdistinct : DistinctTables space) {frame : UInt64} {table : τ}
    (htable : tableFromPhys space frame = some table) (mem : Memory τ) (i : Fin 512)
    (entry frame' : UInt64) (j : Fin 512) :
    entryOf space (setEntry mem table i entry) frame' j =
      if frame' = frame ∧ j = i then entry else entryOf space mem frame' j := by
  rw [setEntry, entryOf_update hdistinct htable]
  rcases eq_or_ne frame' frame with rfl | hne
  · rcases eq_or_ne j i with rfl | hji
    · rw [if_pos rfl, if_pos ⟨rfl, rfl⟩, Function.update_self]
    · rw [if_pos rfl, if_neg fun h => hji h.2, Function.update_of_ne hji, entryOf_eq htable]
  · rw [if_neg hne, if_neg fun h => hne h.1]

theorem frameAt_setPage (hinv : TablesInv space mem) (hdistinct : DistinctTables space)
    {path : List (Fin 512)} (hlen : path.length = 3) {frame : UInt64}
    (hframe : frameAt space mem path = some frame) {table : τ}
    (htable : tableFromPhys space frame = some table) (i : Fin 512) (entry : UInt64) :
    ∀ path' frame', path'.length < 3 → frameAt space mem path' = some frame' → ∀ j,
      entryOf space (setEntry mem table i entry) frame' j = entryOf space mem frame' j := by
  intro path' frame' hlen' hframe' j
  rw [entryOf_setEntry hdistinct htable, if_neg]
  rintro ⟨rfl, -⟩
  have hsame := hinv.tree path path' frame' (by omega) (by omega) hframe hframe'
  rw [hsame] at hlen
  omega

theorem TablesInv.setPage (hinv : TablesInv space mem) (hdistinct : DistinctTables space)
    {path : List (Fin 512)} (hlen : path.length = 3) {frame : UInt64}
    (hframe : frameAt space mem path = some frame) {table : τ}
    (htable : tableFromPhys space frame = some table) (i : Fin 512) (entry : UInt64) :
    TablesInv space (setEntry mem table i entry) :=
  hinv.congr (frameAt_setPage hinv hdistinct hlen hframe htable i entry)

theorem PlainTables.setPage (hplain : PlainTables space mem) (hinv : TablesInv space mem)
    (hdistinct : DistinctTables space) {path : List (Fin 512)} (hlen : path.length = 3)
    {frame : UInt64} (hframe : frameAt space mem path = some frame) {table : τ}
    (htable : tableFromPhys space frame = some table) (i : Fin 512) (entry : UInt64) :
    PlainTables space (setEntry mem table i entry) :=
  hplain.congr (frameAt_setPage hinv hdistinct hlen hframe htable i entry)

theorem pageAt_setPage (hinv : TablesInv space mem) (hdistinct : DistinctTables space)
    {vaddr : UInt64} (hpage : IsPage vaddr) {frame : UInt64}
    (hframe : frameAt space mem (tablePath vaddr) = some frame) {table : τ}
    (htable : tableFromPhys space frame = some table) (entry : UInt64) {vaddr' : UInt64}
    (hpage' : IsPage vaddr') :
    pageAt space (setEntry mem table (idxPt vaddr) entry) vaddr' =
      if vaddr' = vaddr then pageOf entry else pageAt space mem vaddr' := by
  have hframes := frameAt_congr
    (frameAt_setPage hinv hdistinct rfl hframe htable (idxPt vaddr) entry)
  rw [pageAt, pageAt, hframes (tablePath vaddr') (Nat.le_refl 3)]
  split
  case isTrue heq =>
    rw [heq, hframe, Option.bind_some, entryOf_setEntry hdistinct htable, if_pos ⟨rfl, rfl⟩]
  case isFalse hne =>
    rcases hframe' : frameAt space mem (tablePath vaddr') with _ | frame'
    · rfl
    · rw [Option.bind_some, Option.bind_some, entryOf_setEntry hdistinct htable, if_neg]
      rintro ⟨rfl, hlast⟩
      have hpath := hinv.tree (tablePath vaddr') (tablePath vaddr) frame' (Nat.le_refl 3)
        (Nat.le_refl 3) hframe' hframe
      exact hne (pageAddress_ext hpage' hpage hpath hlast)

/-- The memory after a new table was zeroed and entered into another one. -/
def linkTable (mem : Memory τ) (table : τ) (i : Fin 512) (newTable : τ) (newPaddr : UInt64) :
    Memory τ :=
  setEntry (Function.update mem newTable vmmZeroPage) table i (tableEntry newPaddr)

section Link

variable {path : List (Fin 512)} {i : Fin 512} {frame newPaddr : UInt64} {table newTable : τ}

theorem NewTable.entryOf (h : NewTable space mem path i frame table newPaddr newTable)
    (hdistinct : DistinctTables space) (frame' : UInt64) (j : Fin 512) :
    VmmTables.entryOf space (linkTable mem table i newTable newPaddr) frame' j =
      if frame' = frame ∧ j = i then tableEntry newPaddr
      else if frame' = newPaddr then 0
      else VmmTables.entryOf space mem frame' j := by
  rw [linkTable, entryOf_setEntry hdistinct h.table_eq, entryOf_update hdistinct h.new_eq]
  rfl

theorem NewTable.links (h : NewTable space mem path i frame table newPaddr newTable)
    (hinv : TablesInv space mem) (hdistinct : DistinctTables space) :
    Links (nextFrame space mem) (nextFrame space (linkTable mem table i newTable newPaddr))
      space.rootPaddr 3 path i newPaddr := by
  have hne := h.ne (Nat.le_of_lt h.above) h.frame_eq
  refine ⟨h.above, ⟨frame, h.frame_eq, ?_, ?_⟩, ?_, ?_, ?_⟩
  · rw [nextFrame, if_pos h.absent]
  · have hentry := (h.entryOf hdistinct frame i).trans (if_pos ⟨rfl, rfl⟩)
    rw [nextFrame, hentry, if_neg (tableEntry_present newPaddr), tableEntry_addr, h.addr]
  · intro path' hlen hframe'
    exact h.ne hlen hframe' rfl
  · intro j
    have hentry :
        VmmTables.entryOf space (linkTable mem table i newTable newPaddr) newPaddr j = 0 := by
      rw [h.entryOf hdistinct, if_neg fun heq => hne heq.1.symm, if_pos rfl]
    rw [nextFrame, hentry, if_pos UInt64.zero_and]
  · intro path' frame' j hlen hframe' hother
    have hentry : VmmTables.entryOf space (linkTable mem table i newTable newPaddr) frame' j =
        VmmTables.entryOf space mem frame' j := by
      rw [h.entryOf hdistinct, if_neg, if_neg (h.ne (Nat.le_of_lt hlen) hframe')]
      rintro ⟨rfl, rfl⟩
      have hsame := hinv.tree path' path frame' (Nat.le_of_lt hlen) (Nat.le_of_lt h.above)
        hframe' h.frame_eq
      exact hother.elim (fun hne => hne hsame) fun hne => hne rfl
    rw [nextFrame, nextFrame, hentry]

theorem NewTable.frameAt (h : NewTable space mem path i frame table newPaddr newTable)
    (hinv : TablesInv space mem) (hdistinct : DistinctTables space) {path' : List (Fin 512)}
    (hlen : path'.length ≤ 3) :
    VmmTables.frameAt space (linkTable mem table i newTable newPaddr) path' =
      if path' = path ++ [i] then some newPaddr else VmmTables.frameAt space mem path' :=
  (h.links hinv hdistinct).descend path' hlen

theorem NewTable.tablesInv (h : NewTable space mem path i frame table newPaddr newTable)
    (hinv : TablesInv space mem) (hdistinct : DistinctTables space) :
    TablesInv space (linkTable mem table i newTable newPaddr) := by
  refine ⟨hinv.tree.link (h.links hinv hdistinct), ?_, ?_⟩
  · intro path' frame' hlen hframe'
    rw [h.frameAt hinv hdistinct hlen] at hframe'
    split at hframe'
    · cases hframe'
      exact ⟨newTable, h.new_eq⟩
    · exact hinv.backed path' frame' hlen hframe'
  · intro path' frame' j hlen hframe' hpresent
    rw [h.frameAt hinv hdistinct (Nat.le_of_lt hlen)] at hframe'
    rw [h.entryOf hdistinct] at hpresent ⊢
    split at hpresent
    case isTrue hnew =>
      rw [if_pos hnew]
      exact tableEntry_huge newPaddr
    case isFalse hnew =>
      rw [if_neg hnew]
      split at hpresent
      · exact absurd UInt64.zero_and hpresent
      case isFalse hold =>
        rw [if_neg hold]
        split at hframe'
        · cases hframe'
          exact absurd rfl hold
        · exact hinv.small path' frame' j hlen hframe' hpresent

theorem NewTable.plainTables (h : NewTable space mem path i frame table newPaddr newTable)
    (hinv : TablesInv space mem) (hdistinct : DistinctTables space)
    (hplain : PlainTables space mem) :
    PlainTables space (linkTable mem table i newTable newPaddr) := by
  intro path' frame' j hlen hframe' hpresent
  rw [h.frameAt hinv hdistinct (Nat.le_of_lt hlen)] at hframe'
  rw [h.entryOf hdistinct] at hpresent ⊢
  split at hpresent
  case isTrue hnew =>
    rw [if_pos hnew]
    exact ⟨newPaddr, rfl⟩
  case isFalse hnew =>
    rw [if_neg hnew]
    split at hpresent
    · exact absurd UInt64.zero_and hpresent
    case isFalse hold =>
      rw [if_neg hold]
      split at hframe'
      · cases hframe'
        exact absurd rfl hold
      · exact hplain path' frame' j hlen hframe' hpresent

theorem NewTable.pageAt (h : NewTable space mem path i frame table newPaddr newTable)
    (hinv : TablesInv space mem) (hdistinct : DistinctTables space) (vaddr : UInt64) :
    VmmTables.pageAt space (linkTable mem table i newTable newPaddr) vaddr =
      VmmTables.pageAt space mem vaddr := by
  have hlen : (tablePath vaddr).length ≤ 3 := Nat.le_refl 3
  rw [VmmTables.pageAt, VmmTables.pageAt, h.frameAt hinv hdistinct hlen]
  split
  case isTrue hpath =>
    have hnone : VmmTables.frameAt space mem (path ++ [i]) = none := by
      rw [frameAt_concat, h.frame_eq, Option.bind_some, nextFrame, if_pos h.absent]
    rw [hpath, hnone, Option.bind_some, h.entryOf hdistinct, if_neg, if_pos rfl]
    · rfl
    · rintro ⟨heq, -⟩
      exact h.ne (Nat.le_of_lt h.above) h.frame_eq heq.symm
  case isFalse hpath =>
    rcases hframe' : VmmTables.frameAt space mem (tablePath vaddr) with _ | frame'
    · rfl
    · rw [Option.bind_some, Option.bind_some, h.entryOf hdistinct, if_neg,
        if_neg (h.ne hlen hframe')]
      rintro ⟨rfl, -⟩
      have hsame := hinv.tree _ _ frame' hlen (Nat.le_of_lt h.above) hframe' h.frame_eq
      have habove := h.above
      rw [← hsame] at habove
      exact absurd habove (Nat.lt_irrefl 3)

end Link

end Frames

end Mcsos.VmmTables

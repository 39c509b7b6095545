import Mcsos.VmmRights

namespace Mcsos.VmmAgreement

open Mcsos.CallSystem
open Mcsos.TableTree
open Mcsos.VmmModel
open Mcsos.VmmTables
open Mcsos.VmmRefinement
open Mcsos.VmmRights

variable {τ σ : Type} {space : VmmSpace τ σ}

theorem and_addrMask_eq_self_iff {paddr : UInt64} (haligned : vmmIsAligned4k paddr = true) :
    paddr &&& vmmPteAddrMask = paddr ↔ paddr < 2 ^ 52 := by
  refine ⟨fun hkept => ?_, and_addrMask haligned⟩
  rw [← hkept, UInt64.lt_iff_toNat_lt, UInt64.toNat_and]
  exact Nat.lt_of_le_of_lt Nat.and_le_right (by decide)

section Mapped

variable [DecidableEq τ] {m : Machine τ σ} {trace : List (VmmCall × VmmResult)}

/-- After a page was mapped, a query finds it with the flags and the frame asked for, exactly
when the address of the frame has at most 52 bits. -/
theorem run_query_mapped {rootPaddr : UInt64}
    {allocFrame : Option (σ → Memory τ → σ × Memory τ × UInt64)}
    {freeFrame : Option (σ → UInt64 → σ)} {physToVirt : UInt64 → Option τ}
    (hinit : vmmSpaceInit true rootPaddr allocFrame freeFrame (some physToVirt) = .ok space)
    (hdistinct : ∀ frame frame' table, vmmIsAligned4k frame = true → vmmIsAligned4k frame' = true →
      physToVirt frame = some table → physToVirt frame' = some table → frame = frame')
    {ctx : σ} {mem : Memory τ} {root : τ} (hroot : physToVirt rootPaddr = some root)
    (hzero : mem root = vmmZeroPage)
    (hrun : Run (anyPaddrSystem space) ⟨ctx, mem, []⟩ trace m)
    {vaddr paddr flags : UInt64} (hpage : IsPage vaddr) (hpaddr : vmmIsAligned4k paddr = true)
    (hallowed : (anyPaddrSystem space).allowed m (.mapPage vaddr paddr flags))
    (hok : (vmmMapPage (some space) m vaddr paddr flags).2 = .ok ()) :
    vmmQueryPage (some space) (vmmMapPage (some space) m vaddr paddr flags).1.mem vaddr true =
        .ok ⟨vaddr, paddr, vmmPtePresent ||| (flags &&& allowedFlags)⟩ ↔
      paddr < 2 ^ 52 := by
  obtain ⟨hdistinct', hgrants⟩ := grants_run hinit hdistinct hroot hzero hrun
  rcases hgrants.holds.mapPage hdistinct' ⟨vaddr, hpage⟩ hpaddr flags hallowed with
    ⟨-, hfail, -⟩ | ⟨-, ⟨-, hholds⟩ | ⟨hfail, -⟩⟩
  · rw [hok] at hfail
    cases hfail
  · have hquery := hholds.queryPage ⟨vaddr, hpage⟩
    rw [Function.update_self, pageOf, if_neg (pageEntry_present paddr flags), pageEntry_addr,
      pageEntry_flags] at hquery
    rw [hquery, ← and_addrMask_eq_self_iff hpaddr]
    simp
  · rw [hok] at hfail
    cases hfail

end Mapped

theorem run_query_mapped_hostStart :
    vmmQueryPage (some hostSpace)
        (vmmMapPage (some hostSpace) hostStart hostVaddr 0x300000 vmmPteWritable).1.mem hostVaddr
        true =
      .ok ⟨hostVaddr, 0x300000, vmmPtePresent ||| (vmmPteWritable &&& allowedFlags)⟩ := by
  have hinit : vmmSpaceInit true 0x1000 (some hostAlloc) none (some hostPhysToVirt) =
      .ok hostSpace := rfl
  have hallowed : (anyPaddrSystem hostSpace).allowed hostStart
      (.mapPage hostVaddr 0x300000 vmmPteWritable) := contract_hostLog
  exact (run_query_mapped hinit hostPhysToVirt_distinct rfl rfl (.nil hostStart) (by decide)
    (by decide) hallowed rfl).mpr (by decide)

/-- The frame at `0x10000000300000` is mapped, and a query finds the frame at `0x300000`. -/
theorem query_other_frame :
    Run (anyPaddrSystem hostSpace) hostStart [] hostStart ∧
      (IsPage hostVaddr ∧ vmmIsAligned4k 0x10000000300000 = true) ∧
      (anyPaddrSystem hostSpace).allowed hostStart (.mapPage hostVaddr 0x10000000300000 0) ∧
      (vmmMapPage (some hostSpace) hostStart hostVaddr 0x10000000300000 0).2 = .ok () ∧
      vmmQueryPage (some hostSpace)
          (vmmMapPage (some hostSpace) hostStart hostVaddr 0x10000000300000 0).1.mem hostVaddr
          true =
        .ok ⟨hostVaddr, 0x300000, vmmPtePresent⟩ :=
  ⟨.nil hostStart, by decide, contract_hostLog, rfl, rfl⟩

/-- The walk to the last table meets an entry for a larger page. -/
def meetsHuge (space : VmmSpace τ σ) (mem : Memory τ) (frame : UInt64) :
    List (Fin 512) → Bool
  | [] => false
  | i :: path =>
      let entry := entryOf space mem frame i
      if entry &&& vmmPtePresent = 0 then false
      else if entry &&& vmmPteHuge ≠ 0 then true
      else meetsHuge space mem (entry &&& vmmPteAddrMask) path

/-- All tables of the walk have pages in memory. -/
def walkBacked (space : VmmSpace τ σ) (mem : Memory τ) (frame : UInt64) :
    List (Fin 512) → Bool
  | [] => (tableFromPhys space frame).isSome
  | i :: path =>
      let entry := entryOf space mem frame i
      (tableFromPhys space frame).isSome &&
        (entry &&& vmmPtePresent == 0 || entry &&& vmmPteHuge != 0 ||
          walkBacked space mem (entry &&& vmmPteAddrMask) path)

/-- The table that an entry refers to, if it refers to one. -/
def childFrame (space : VmmSpace τ σ) (mem : Memory τ) (frame : UInt64) (i : Fin 512) :
    Option UInt64 :=
  let entry := entryOf space mem frame i
  if entry &&& vmmPtePresent = 0 ∨ entry &&& vmmPteHuge ≠ 0 then none
  else some (entry &&& vmmPteAddrMask)

/-- The frames of the tables that can be reached from the root. -/
def InUse (space : VmmSpace τ σ) (mem : Memory τ) (frame : UInt64) : Prop :=
  ∃ path, path.length ≤ 3 ∧ descend (childFrame space mem) space.rootPaddr path = some frame

/-- The allocator does not touch the tables and returns a frame that is none of them; it may have
no page in memory. -/
def UnusedFrame (space : VmmSpace τ σ) : FrameEvent τ → Prop
  | .alloc before after frame =>
      (∀ frame', InUse space before frame' → ∀ i,
          entryOf space after frame' i = entryOf space before frame' i) ∧
        (frame = vmmInvalidPhys ∨
          vmmIsAligned4k frame = true ∧ frame < 2 ^ 52 ∧ ¬InUse space before frame)
  | .free _ => True

section Walks

variable {mem mem' : Memory τ}

theorem childFrame_eq_some {frame next : UInt64} {i : Fin 512}
    (h : childFrame space mem frame i = some next) :
    entryOf space mem frame i &&& vmmPtePresent ≠ 0 := by
  intro habsent
  rw [childFrame, if_pos (.inl habsent)] at h
  cases h

theorem childFrame_congr {frame : UInt64} {i : Fin 512}
    (h : entryOf space mem' frame i = entryOf space mem frame i) :
    childFrame space mem' frame i = childFrame space mem frame i := by
  rw [childFrame, childFrame, h]

theorem exists_table_of_walkBacked {frame : UInt64} {path : List (Fin 512)}
    (h : walkBacked space mem frame path = true) :
    ∃ table, tableFromPhys space frame = some table := by
  rcases path with _ | ⟨i, path⟩
  · exact Option.isSome_iff_exists.mp h
  · rw [walkBacked, Bool.and_eq_true] at h
    exact Option.isSome_iff_exists.mp h.1

/-- A table without entries at the end of a path. -/
structure EmptyTable (space : VmmSpace τ σ) (mem : Memory τ) (path : List (Fin 512)) (table : τ) :
    Prop where
  found : ∃ frame, descend (childFrame space mem) space.rootPaddr path = some frame ∧
    tableFromPhys space frame = some table
  empty : ∀ i, mem table i = 0

variable [DecidableEq τ]

theorem emptyTable_link (hdistinct : DistinctTables space) {path : List (Fin 512)}
    (hlen : path.length < 3) {frame : UInt64}
    (hframe : descend (childFrame space mem) space.rootPaddr path = some frame) {table : τ}
    (htable : tableFromPhys space frame = some table) {i : Fin 512}
    (habsent : entryOf space mem frame i &&& vmmPtePresent = 0) {newPaddr : UInt64} {newTable : τ}
    (hnew : tableFromPhys space newPaddr = some newTable)
    (haddr : newPaddr &&& vmmPteAddrMask = newPaddr) (hfresh : ¬InUse space mem newPaddr)
    (hsame : ∀ frame', InUse space mem frame' → ∀ j,
      entryOf space mem' frame' j = entryOf space mem frame' j) :
    EmptyTable space (linkTable mem' table i newTable newPaddr) (path ++ [i]) newTable := by
  have hentry : ∀ frame' j, entryOf space (linkTable mem' table i newTable newPaddr) frame' j =
      if frame' = frame ∧ j = i then tableEntry newPaddr
      else if frame' = newPaddr then 0 else entryOf space mem' frame' j := by
    intro frame' j
    rw [linkTable, entryOf_setEntry hdistinct htable, entryOf_update hdistinct hnew]
    rfl
  have hne : newPaddr ≠ frame := by
    rintro rfl
    exact hfresh ⟨path, Nat.le_of_lt hlen, hframe⟩
  have hlinks : ∀ path' node j next, path'.length < 3 →
      descend (childFrame space mem) space.rootPaddr path' = some node →
      childFrame space mem node j = some next →
      childFrame space (linkTable mem' table i newTable newPaddr) node j = some next := by
    intro path' node j next hlen' hnode hchild
    have huse : InUse space mem node := ⟨path', Nat.le_of_lt hlen', hnode⟩
    rw [← hchild]
    apply childFrame_congr
    rw [hentry, if_neg, if_neg, hsame node huse]
    · rintro rfl
      exact hfresh huse
    · rintro ⟨rfl, rfl⟩
      exact childFrame_eq_some hchild habsent
  have hlink : entryOf space (linkTable mem' table i newTable newPaddr) frame i =
      tableEntry newPaddr := (hentry frame i).trans (if_pos ⟨rfl, rfl⟩)
  refine ⟨⟨newPaddr, ?_, hnew⟩, fun j => ?_⟩
  · rw [descend_concat, descend_mono hlinks path frame (Nat.le_of_lt hlen) hframe,
      Option.bind_some, childFrame, hlink, if_neg, tableEntry_addr, haddr]
    rintro (hpresent | hhuge)
    · exact tableEntry_present newPaddr hpresent
    · exact hhuge (tableEntry_huge newPaddr)
  · have hzero := hentry newPaddr j
    rw [entryOf_eq hnew, if_neg fun heq => hne heq.1, if_pos rfl] at hzero
    exact hzero

theorem allocNextTable_empty (hdistinct : DistinctTables space) {m : Machine τ σ}
    {path : List (Fin 512)} (hlen : path.length < 3) {frame : UInt64}
    (hframe : descend (childFrame space m.mem) space.rootPaddr path = some frame) {table : τ}
    (htable : tableFromPhys space frame = some table) {i : Fin 512}
    (habsent : entryOf space m.mem frame i &&& vmmPtePresent = 0)
    (hcontract : ∀ event ∈ (allocNextTable space m table i).1.log, UnusedFrame space event) :
    (∃ rc, rc ≠ .errExists ∧ (allocNextTable space m table i).2 = .error rc) ∨
      ∃ newTable, (allocNextTable space m table i).2 = .ok newTable ∧
        EmptyTable space (allocNextTable space m table i).1.mem (path ++ [i]) newTable := by
  rcases hnull : space.allocFrame with _ | allocFrame
  · rw [allocNextTable, hnull]
    exact .inl ⟨.errNomem, by decide, rfl⟩
  · obtain ⟨hsame, hfrom⟩ := hcontract _ (log_allocNextTable table i (.inr ⟨_, hnull, rfl⟩))
    rw [allocNextTable, hnull]
    dsimp only
    generalize allocFrame m.ctx m.mem = answer at hsame hfrom
    obtain ⟨ctx, mem', newPaddr⟩ := answer
    dsimp only at hsame hfrom ⊢
    split
    · exact .inl ⟨.errNomem, by decide, rfl⟩
    case isFalse hvalid =>
      rw [not_or] at hvalid
      obtain ⟨haligned, hlt, hfresh⟩ := hfrom.resolve_left hvalid.1
      rcases hnew : tableFromPhys space newPaddr with _ | newTable
      · dsimp only
        split <;> exact .inl ⟨.errInval, by decide, rfl⟩
      · exact .inr ⟨newTable, rfl, emptyTable_link hdistinct hlen hframe htable habsent hnew
          (and_addrMask haligned hlt) hfresh hsame⟩

/-- The walk of `vmm_map_page` ends at an empty table, or fails for want of one. -/
def EndsEmpty (space : VmmSpace τ σ) (m : Machine τ σ) (table : τ) (rest : List (Fin 512)) :
    Prop :=
  (mapTables space m table rest).2 ≠ .error .errExists ∧
    ∀ pt, (mapTables space m table rest).2 = .ok pt →
      ∀ i, (mapTables space m table rest).1.mem pt i = 0

theorem endsEmpty_cons (hdistinct : DistinctTables space) {m : Machine τ σ}
    {path rest : List (Fin 512)} {i : Fin 512} (hlen : path.length + (i :: rest).length ≤ 3)
    {frame : UInt64} (hframe : descend (childFrame space m.mem) space.rootPaddr path = some frame)
    {table : τ} (htable : tableFromPhys space frame = some table)
    (habsent : m.mem table i &&& vmmPtePresent = 0)
    (hcontract : ∀ event ∈ (mapTables space m table (i :: rest)).1.log, UnusedFrame space event)
    (hrest : ∀ (m : Machine τ σ) (newTable : τ), EmptyTable space m.mem (path ++ [i]) newTable →
      (∀ event ∈ (mapTables space m newTable rest).1.log, UnusedFrame space event) →
      EndsEmpty space m newTable rest) :
    EndsEmpty space m table (i :: rest) := by
  rw [List.length_cons] at hlen
  have hnext : getOrAllocNextTable space m table i = allocNextTable space m table i :=
    if_neg (not_not.mpr habsent)
  have hentry := entryOf_eq htable m.mem i
  rw [← hentry] at habsent
  have halloc := allocNextTable_empty hdistinct (by omega) hframe htable habsent
  rw [mapTables, hnext] at hcontract
  rw [EndsEmpty, mapTables, hnext]
  generalize allocNextTable space m table i = answer at halloc hcontract
  obtain ⟨m', rc | newTable⟩ := answer
  · rcases halloc hcontract with ⟨rc', hne, heq⟩ | ⟨_, heq, -⟩
    · cases heq
      refine ⟨fun heq => hne (Except.error.inj heq), fun _ heq => ?_⟩
      cases heq
    · cases heq
  · have hlog : ∀ event ∈ m'.log, UnusedFrame space event := fun event hevent =>
      hcontract event (log_mapTables rest m' newTable hevent)
    rcases halloc hlog with ⟨_, -, heq⟩ | ⟨_, heq, hempty⟩
    · cases heq
    · cases heq
      exact hrest m' newTable hempty hcontract

theorem endsEmpty_of_emptyTable (hdistinct : DistinctTables space) (rest : List (Fin 512)) :
    ∀ (m : Machine τ σ) (path : List (Fin 512)) (table : τ), path.length + rest.length ≤ 3 →
      EmptyTable space m.mem path table →
      (∀ event ∈ (mapTables space m table rest).1.log, UnusedFrame space event) →
      EndsEmpty space m table rest := by
  induction rest with
  | nil =>
      intro m path table _ hempty _
      refine ⟨fun hfail => ?_, fun pt hpt => ?_⟩
      · cases hfail
      · cases hpt
        exact hempty.empty
  | cons i rest ih =>
      intro m path table hlen hempty hcontract
      obtain ⟨frame, hframe, htable⟩ := hempty.found
      have habsent : m.mem table i &&& vmmPtePresent = 0 := by
        rw [hempty.empty]
        exact UInt64.zero_and
      refine endsEmpty_cons hdistinct hlen hframe htable habsent hcontract ?_
      intro m newTable hempty hlog
      refine ih m (path ++ [i]) newTable ?_ hempty hlog
      rw [List.length_append, List.length_singleton, Nat.add_right_comm]
      exact hlen

/-- The walk of `vmm_map_page` and that of the other two calls: both reach the same table, one
reports the entry of a larger page and the others do not, or one makes tables and the others
report that there is none. -/
theorem walks_cases (hdistinct : DistinctTables space) {m : Machine τ σ} (rest : List (Fin 512)) :
    ∀ (path : List (Fin 512)) (frame : UInt64) (table : τ), path.length + rest.length ≤ 3 →
      descend (childFrame space m.mem) space.rootPaddr path = some frame →
      tableFromPhys space frame = some table → walkBacked space m.mem frame rest = true →
      (∀ event ∈ (mapTables space m table rest).1.log, UnusedFrame space event) →
      (∃ pt, meetsHuge space m.mem frame rest = false ∧
          walkTables space m.mem table rest = .ok pt ∧
          mapTables space m table rest = (m, .ok pt)) ∨
        (meetsHuge space m.mem frame rest = true ∧
          walkTables space m.mem table rest = .error .errNotFound ∧
          mapTables space m table rest = (m, .error .errExists)) ∨
        (meetsHuge space m.mem frame rest = false ∧
          walkTables space m.mem table rest = .error .errNotFound ∧
          EndsEmpty space m table rest) := by
  induction rest with
  | nil =>
      intro path frame table _ _ _ _ _
      exact .inl ⟨table, rfl, rfl, rfl⟩
  | cons i rest ih =>
      intro path frame table hlen hframe htable hbacked hcontract
      have hentry := entryOf_eq htable m.mem i
      have hlen' : (path ++ [i]).length + rest.length ≤ 3 := by
        rw [List.length_append, List.length_singleton, Nat.add_right_comm]
        exact hlen
      by_cases habsent : m.mem table i &&& vmmPtePresent = 0
      · refine .inr (.inr ⟨?_, ?_, ?_⟩)
        · rw [meetsHuge, hentry, if_pos habsent]
        · rw [walkTables, nextTable, if_pos (.inl habsent)]
        · refine endsEmpty_cons hdistinct hlen hframe htable habsent hcontract ?_
          exact fun m newTable => endsEmpty_of_emptyTable hdistinct rest m _ newTable hlen'
      · by_cases hhuge : m.mem table i &&& vmmPteHuge = 0
        · have hbelow : walkBacked space m.mem (m.mem table i &&& vmmPteAddrMask) rest = true := by
            rw [walkBacked, hentry, Bool.and_eq_true] at hbacked
            simpa [habsent, hhuge] using hbacked.2
          obtain ⟨next, hnext⟩ := exists_table_of_walkBacked hbelow
          have hsmall : ¬(m.mem table i &&& vmmPtePresent = 0 ∨
              m.mem table i &&& vmmPteHuge ≠ 0) := by
            rintro (habsent' | hhuge')
            · exact habsent habsent'
            · exact hhuge' hhuge
          have hframe' : descend (childFrame space m.mem) space.rootPaddr (path ++ [i]) =
              some (m.mem table i &&& vmmPteAddrMask) := by
            rw [descend_concat, hframe, Option.bind_some, childFrame, hentry, if_neg hsmall]
          have hwalk : walkTables space m.mem table (i :: rest) =
              walkTables space m.mem next rest := by
            rw [walkTables, nextTable, if_neg hsmall, hnext]
          have hmap : mapTables space m table (i :: rest) = mapTables space m next rest := by
            rw [mapTables, getOrAllocNextTable, if_pos habsent, if_neg (not_not.mpr hhuge), hnext]
          have hmeets : meetsHuge space m.mem frame (i :: rest) =
              meetsHuge space m.mem (m.mem table i &&& vmmPteAddrMask) rest := by
            rw [meetsHuge, hentry, if_neg habsent, if_neg (not_not.mpr hhuge)]
          rw [EndsEmpty, hmap, hwalk, hmeets]
          rw [hmap] at hcontract
          exact ih (path ++ [i]) _ next hlen' hframe' hnext hbelow hcontract
        · refine .inr (.inl ⟨?_, ?_, ?_⟩)
          · rw [meetsHuge, hentry, if_neg habsent, if_pos hhuge]
          · rw [walkTables, nextTable, if_pos (.inr hhuge)]
          · rw [mapTables, getOrAllocNextTable, if_pos habsent, if_pos hhuge]

/-- Whatever the tables are, a query finds a page exactly when it can be unmapped, and mapping
fails because of what is there exactly when a query finds a page or the walk meets the entry of
a larger one. -/
theorem map_query_unmap_agree (hdistinct : DistinctTables space) {ctx : σ} {mem : Memory τ}
    {vaddr paddr : UInt64} (hpage : IsPage vaddr) (hpaddr : vmmIsAligned4k paddr = true)
    (flags : UInt64)
    (hbacked : walkBacked space mem space.rootPaddr (tablePath vaddr) = true)
    (hcontract : ∀ event ∈ (vmmMapPage (some space) ⟨ctx, mem, []⟩ vaddr paddr flags).1.log,
      UnusedFrame space event) :
    ((∃ mapping, vmmQueryPage (some space) mem vaddr true = .ok mapping) ↔
        (vmmUnmapPage (some space) ⟨ctx, mem, []⟩ vaddr).2 = .ok ()) ∧
      ((vmmMapPage (some space) ⟨ctx, mem, []⟩ vaddr paddr flags).2 = .error .errExists ↔
        (∃ mapping, vmmQueryPage (some space) mem vaddr true = .ok mapping) ∨
          meetsHuge space mem space.rootPaddr (tablePath vaddr) = true) := by
  obtain ⟨root, hroot⟩ := exists_table_of_walkBacked hbacked
  have hlog : ∀ event ∈ (mapTables space ⟨ctx, mem, []⟩ root (tablePath vaddr)).1.log,
      UnusedFrame space event := by
    rw [vmmMapPage_eq hroot hpage hpaddr] at hcontract
    generalize mapTables space ⟨ctx, mem, []⟩ root (tablePath vaddr) = answer at hcontract
    obtain ⟨m', rc | pt⟩ := answer
    · exact hcontract
    · dsimp only at hcontract
      rw [mapEntry] at hcontract
      split at hcontract <;> exact hcontract
  rw [vmmMapPage_eq hroot hpage hpaddr, vmmQueryPage, vmmUnmapPage, hpage.1, hpage.2,
    if_neg (by decide), if_neg (by decide), findPageTable_eq hroot]
  rcases walks_cases hdistinct (m := ⟨ctx, mem, []⟩) (tablePath vaddr) [] space.rootPaddr root
      (Nat.le_refl 3) rfl hroot hbacked hlog with
    ⟨pt, hmeets, hwalk, hmap⟩ | ⟨hmeets, hwalk, hmap⟩ | ⟨hmeets, hwalk, hends⟩
  · rw [hmeets, hmap, hwalk]
    dsimp only
    rw [mapEntry]
    by_cases habsent : mem pt (idxPt vaddr) &&& vmmPtePresent = 0
    · rw [if_pos habsent, if_pos habsent, if_neg (not_not.mpr habsent)]
      simp
    · rw [if_neg habsent, if_neg habsent, if_pos habsent]
      simp
  · rw [hmeets, hmap, hwalk]
    simp
  · rw [hmeets, hwalk]
    have hmapped := hends.2
    have hrefused := hends.1
    generalize mapTables space ⟨ctx, mem, []⟩ root (tablePath vaddr) = answer at hmapped hrefused
    obtain ⟨m', rc | pt⟩ := answer
    · simpa using hrefused
    · have habsent : m'.mem pt (idxPt vaddr) &&& vmmPtePresent = 0 := by
        rw [hmapped pt rfl]
        exact UInt64.zero_and
      dsimp only
      rw [mapEntry, if_neg (not_not.mpr habsent)]
      simp

end Walks

/-- The tables that the kernel starts with: the first gigabyte is mapped to itself in pages of
2 MiB. -/
def bootMem : Memory UInt64 := fun frame i =>
  if frame = 0x1000 then if i = 0 then 0x2000 + 3 else 0
  else if frame = 0x2000 then if i = 0 then 0x3000 + 3 else 0
  else if frame = 0x3000 then UInt64.ofNat i.val <<< 21 ||| 0x83
  else 0

theorem map_query_unmap_agree_bootMem :
    meetsHuge hostSpace bootMem hostSpace.rootPaddr (tablePath 0x200000) = true ∧
      (vmmMapPage (some hostSpace) ⟨0x4000, bootMem, []⟩ 0x200000 0x5000 0).2 =
        .error .errExists := by
  have hcontract : ∀ event ∈
      (vmmMapPage (some hostSpace) ⟨0x4000, bootMem, []⟩ 0x200000 0x5000 0).1.log,
      UnusedFrame hostSpace event := fun event hevent => absurd hevent List.not_mem_nil
  have hagree := map_query_unmap_agree distinctTables_hostSpace (by decide) (by decide) 0
    (by decide) hcontract
  exact ⟨by decide, hagree.2.mpr (.inr (by decide))⟩

/-- An address in a large page: mapping it fails because of the page, which a query and an unmap
do not find. -/
theorem bootMem_disagrees :
    walkBacked hostSpace bootMem hostSpace.rootPaddr (tablePath 0x200000) = true ∧
      (vmmMapPage (some hostSpace) ⟨0x4000, bootMem, []⟩ 0x200000 0x5000 0).2 =
        .error .errExists ∧
      vmmQueryPage (some hostSpace) bootMem 0x200000 true = .error .errNotFound ∧
      (vmmUnmapPage (some hostSpace) ⟨0x4000, bootMem, []⟩ 0x200000).2 = .error .errNotFound :=
  ⟨by decide, rfl, rfl, rfl⟩

end Mcsos.VmmAgreement

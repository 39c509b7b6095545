import Mcsos.CallSystem
import Mcsos.VmmTables

namespace Mcsos.VmmRefinement

open Mcsos.CallSystem
open Mcsos.TableTree
open Mcsos.VmmModel
open Mcsos.VmmTables

variable {τ σ : Type} {space : VmmSpace τ σ}

section Walks

variable {mem : Memory τ}

/-- The walk along a path, one level after the other. -/
def walkTables (space : VmmSpace τ σ) (mem : Memory τ) (table : τ) :
    List (Fin 512) → Except VmmError τ
  | [] => .ok table
  | i :: path =>
      match nextTable space mem table i with
      | .error rc => .error rc
      | .ok next => walkTables space mem next path

theorem findPageTable_eq {table : τ} (hroot : tableFromPhys space space.rootPaddr = some table)
    (mem : Memory τ) (vaddr : UInt64) :
    findPageTable space mem vaddr = walkTables space mem table (tablePath vaddr) := by
  rw [findPageTable, hroot]
  dsimp only [tablePath, walkTables]
  rcases nextTable space mem table (idxPml4 vaddr) with rc | pdpt
  · rfl
  · dsimp only
    rcases nextTable space mem pdpt (idxPdpt vaddr) with rc | pd
    · rfl
    · dsimp only
      rcases nextTable space mem pd (idxPd vaddr) with rc | pt
      · rfl
      · rfl

theorem length_concat_le {path : List (Fin 512)} (h : path.length < 3) (i : Fin 512) :
    (path ++ [i]).length ≤ 3 := by
  rw [List.length_append]
  exact h

theorem nextTable_cases (hinv : TablesInv space mem) {path : List (Fin 512)}
    (hlen : path.length < 3) {frame : UInt64} (hframe : frameAt space mem path = some frame)
    {table : τ} (htable : tableFromPhys space frame = some table) (i : Fin 512) :
    frameAt space mem (path ++ [i]) = none ∧
        nextTable space mem table i = .error .errNotFound ∨
      ∃ frame' table', frameAt space mem (path ++ [i]) = some frame' ∧
        tableFromPhys space frame' = some table' ∧ nextTable space mem table i = .ok table' := by
  have hnext : frameAt space mem (path ++ [i]) = nextFrame space mem frame i := by
    rw [frameAt_concat, hframe, Option.bind_some]
  rw [nextFrame, entryOf_eq htable] at hnext
  rw [nextTable]
  by_cases hpresent : mem table i &&& vmmPtePresent = 0
  · rw [if_pos hpresent] at hnext
    exact .inl ⟨hnext, if_pos (.inl hpresent)⟩
  · rw [if_neg hpresent] at hnext
    have hsmall : mem table i &&& vmmPteHuge = 0 := by
      rw [← entryOf_eq htable mem i] at hpresent ⊢
      exact hinv.small path frame i hlen hframe hpresent
    obtain ⟨table', htable'⟩ := hinv.backed _ _ (length_concat_le hlen i) hnext
    refine .inr ⟨_, table', hnext, htable', ?_⟩
    rw [if_neg, htable']
    rintro (habsent | hhuge)
    · exact hpresent habsent
    · exact hhuge hsmall

theorem walkTables_cases (hinv : TablesInv space mem) (rest : List (Fin 512)) :
    ∀ (path : List (Fin 512)) (frame : UInt64) (table : τ), path.length + rest.length ≤ 3 →
      frameAt space mem path = some frame → tableFromPhys space frame = some table →
      frameAt space mem (path ++ rest) = none ∧
          walkTables space mem table rest = .error .errNotFound ∨
        ∃ frame' table', frameAt space mem (path ++ rest) = some frame' ∧
          tableFromPhys space frame' = some table' ∧
          walkTables space mem table rest = .ok table' := by
  induction rest with
  | nil =>
      intro path frame table _ hframe htable
      rw [List.append_nil]
      exact .inr ⟨frame, table, hframe, htable, rfl⟩
  | cons i rest ih =>
      intro path frame table hlen hframe htable
      rw [List.length_cons] at hlen
      rw [List.append_cons, walkTables]
      rcases nextTable_cases hinv (by omega) hframe htable i with
        ⟨hnone, hnext⟩ | ⟨frame', table', hframe', htable', hnext⟩
      · rw [hnext]
        exact .inl ⟨descend_append_of_none hnone rest, rfl⟩
      · rw [hnext]
        refine ih (path ++ [i]) frame' table' ?_ hframe' htable'
        rw [List.length_append, List.length_singleton]
        omega

theorem findPageTable_cases (hinv : TablesInv space mem) (vaddr : UInt64) :
    frameAt space mem (tablePath vaddr) = none ∧
        findPageTable space mem vaddr = .error .errNotFound ∨
      ∃ frame table, frameAt space mem (tablePath vaddr) = some frame ∧
        tableFromPhys space frame = some table ∧
        findPageTable space mem vaddr = .ok table := by
  obtain ⟨root, hroot⟩ := hinv.backed [] space.rootPaddr (Nat.zero_le _) rfl
  rw [findPageTable_eq hroot]
  exact walkTables_cases hinv (tablePath vaddr) [] space.rootPaddr root (Nat.le_refl 3) rfl hroot

end Walks

/-- What the allocator promises: it does not touch the tables of the space, and a frame
that it returns has a table of its own which is not one of the space. -/
def FrameContract (space : VmmSpace τ σ) : FrameEvent τ → Prop
  | .alloc before after frame =>
      SameTables space before after ∧
        (frame = vmmInvalidPhys ∨
          vmmIsAligned4k frame = true ∧ frame < 2 ^ 52 ∧
            (∃ table, tableFromPhys space frame = some table) ∧
            ¬IsTableFrame space before frame)
  | .free _ => True

/-- A call of the allocation has returned, with a table for the path or without memory;
the pages are the same. -/
structure Reaches (space : VmmSpace τ σ) (mem mem' : Memory τ) (path : List (Fin 512))
    (result : Except VmmError τ) : Prop where
  inv : TablesInv space mem'
  pages : ∀ vaddr, pageAt space mem' vaddr = pageAt space mem vaddr
  plain : PlainTables space mem → PlainTables space mem'
  found : result = .error .errNomem ∧ frameAt space mem' path = none ∨
    ∃ frame table, frameAt space mem' path = some frame ∧
      tableFromPhys space frame = some table ∧ result = .ok table

section Alloc

variable [DecidableEq τ] {m : Machine τ σ}

theorem log_allocNextTable (table : τ) (i : Fin 512) {event : FrameEvent τ}
    (h : event ∈ m.log ∨ ∃ allocFrame, space.allocFrame = some allocFrame ∧
      event = .alloc m.mem (allocFrame m.ctx m.mem).2.1 (allocFrame m.ctx m.mem).2.2) :
    event ∈ (allocNextTable space m table i).1.log := by
  rw [allocNextTable]
  rcases hnull : space.allocFrame with _ | allocFrame
  · rcases h with hold | ⟨allocFrame, halloc, -⟩
    · exact hold
    · rw [hnull] at halloc
      cases halloc
  · have hlog : event ∈ m.log ++
        [.alloc m.mem (allocFrame m.ctx m.mem).2.1 (allocFrame m.ctx m.mem).2.2] := by
      rcases h with hold | ⟨allocFrame', halloc, rfl⟩
      · exact List.mem_append_left _ hold
      · rw [hnull] at halloc
        cases halloc
        exact List.mem_append_right _ List.mem_cons_self
    dsimp only
    split
    · exact hlog
    · split
      · split
        · exact hlog
        · exact List.mem_append_left _ hlog
      · exact hlog

theorem log_getOrAllocNextTable (table : τ) (i : Fin 512) {event : FrameEvent τ}
    (h : event ∈ m.log) : event ∈ (getOrAllocNextTable space m table i).1.log := by
  rw [getOrAllocNextTable]
  split
  · split
    · exact h
    · split <;> exact h
  · exact log_allocNextTable table i (.inl h)

theorem allocNextTable_reaches (hinv : TablesInv space m.mem) (hdistinct : DistinctTables space)
    {path : List (Fin 512)} (hlen : path.length < 3) {frame : UInt64}
    (hframe : frameAt space m.mem path = some frame) {table : τ}
    (htable : tableFromPhys space frame = some table) {i : Fin 512}
    (habsent : entryOf space m.mem frame i &&& vmmPtePresent = 0)
    (hcontract : ∀ event ∈ (allocNextTable space m table i).1.log, FrameContract space event) :
    Reaches space m.mem (allocNextTable space m table i).1.mem (path ++ [i])
      (allocNextTable space m table i).2 := by
  have hlen' := length_concat_le hlen i
  have hnone : frameAt space m.mem (path ++ [i]) = none := by
    rw [frameAt_concat, hframe, Option.bind_some, nextFrame, if_pos habsent]
  rcases hnull : space.allocFrame with _ | allocFrame
  · rw [allocNextTable, hnull]
    exact ⟨hinv, fun _ => rfl, id, .inl ⟨rfl, hnone⟩⟩
  · obtain ⟨hsame, hframe'⟩ := hcontract _ (log_allocNextTable table i (.inr ⟨_, hnull, rfl⟩))
    rw [allocNextTable, hnull]
    dsimp only
    generalize allocFrame m.ctx m.mem = answer at hsame hframe'
    obtain ⟨ctx, mem, newPaddr⟩ := answer
    dsimp only at hsame hframe' ⊢
    split
    · refine ⟨hsame.tablesInv hinv, hsame.pageAt, hsame.plainTables, .inl ⟨rfl, ?_⟩⟩
      rw [hsame.frameAt hlen', hnone]
    case isFalse hvalid =>
      rw [not_or] at hvalid
      rcases hframe' with hinvalid | ⟨haligned, hlt, ⟨newTable, hnew⟩, hfresh⟩
      · exact absurd hinvalid hvalid.1
      · have hlink := hsame.newTable hlen hframe htable habsent hnew (and_addrMask haligned hlt)
          hfresh
        have hinv' := hsame.tablesInv hinv
        rw [hnew]
        refine ⟨hlink.tablesInv hinv' hdistinct, fun vaddr => ?_, fun hplain => ?_,
          .inr ⟨newPaddr, newTable, ?_, hnew, rfl⟩⟩
        · exact (hlink.pageAt hinv' hdistinct vaddr).trans (hsame.pageAt vaddr)
        · exact hlink.plainTables hinv' hdistinct (hsame.plainTables hplain)
        · exact (hlink.frameAt hinv' hdistinct hlen').trans (if_pos rfl)

theorem getOrAllocNextTable_cases (hinv : TablesInv space m.mem) {path : List (Fin 512)}
    (hlen : path.length < 3) {frame : UInt64} (hframe : frameAt space m.mem path = some frame)
    {table : τ} (htable : tableFromPhys space frame = some table) (i : Fin 512) :
    (∃ frame' table', frameAt space m.mem (path ++ [i]) = some frame' ∧
        tableFromPhys space frame' = some table' ∧
        getOrAllocNextTable space m table i = (m, .ok table')) ∨
      entryOf space m.mem frame i &&& vmmPtePresent = 0 ∧
        getOrAllocNextTable space m table i = allocNextTable space m table i := by
  rw [getOrAllocNextTable, ← entryOf_eq htable m.mem i]
  by_cases hpresent : entryOf space m.mem frame i &&& vmmPtePresent = 0
  · exact .inr ⟨hpresent, if_neg (not_not.mpr hpresent)⟩
  · have hnext : frameAt space m.mem (path ++ [i]) =
        some (entryOf space m.mem frame i &&& vmmPteAddrMask) := by
      rw [frameAt_concat, hframe, Option.bind_some, nextFrame, if_neg hpresent]
    obtain ⟨table', htable'⟩ := hinv.backed _ _ (length_concat_le hlen i) hnext
    have hsmall := hinv.small path frame i hlen hframe hpresent
    refine .inl ⟨_, table', hnext, htable', ?_⟩
    rw [if_pos hpresent, if_neg (not_not.mpr hsmall), htable']

theorem getOrAllocNextTable_reaches (hinv : TablesInv space m.mem)
    (hdistinct : DistinctTables space) {path : List (Fin 512)} (hlen : path.length < 3)
    {frame : UInt64} (hframe : frameAt space m.mem path = some frame) {table : τ}
    (htable : tableFromPhys space frame = some table) (i : Fin 512)
    (hcontract : ∀ event ∈ (getOrAllocNextTable space m table i).1.log, FrameContract space event) :
    Reaches space m.mem (getOrAllocNextTable space m table i).1.mem (path ++ [i])
      (getOrAllocNextTable space m table i).2 := by
  rcases getOrAllocNextTable_cases hinv hlen hframe htable i with
    ⟨frame', table', hframe', htable', hget⟩ | ⟨habsent, hget⟩
  · rw [hget]
    exact ⟨hinv, fun _ => rfl, id, .inr ⟨frame', table', hframe', htable', rfl⟩⟩
  · rw [hget] at hcontract ⊢
    exact allocNextTable_reaches hinv hdistinct hlen hframe htable habsent hcontract

/-- The walk of `vmm_map_page` along a path, one level after the other. -/
def mapTables (space : VmmSpace τ σ) (m : Machine τ σ) (table : τ) :
    List (Fin 512) → Machine τ σ × Except VmmError τ
  | [] => (m, .ok table)
  | i :: path =>
      match getOrAllocNextTable space m table i with
      | (m, .error rc) => (m, .error rc)
      | (m, .ok next) => mapTables space m next path

theorem log_mapTables {event : FrameEvent τ} (rest : List (Fin 512)) :
    ∀ (m : Machine τ σ) (table : τ), event ∈ m.log →
      event ∈ (mapTables space m table rest).1.log := by
  induction rest with
  | nil => exact fun _ _ h => h
  | cons i rest ih =>
      intro m table h
      have hnext : event ∈ (getOrAllocNextTable space m table i).1.log :=
        log_getOrAllocNextTable table i h
      rw [mapTables]
      generalize getOrAllocNextTable space m table i = answer at hnext
      obtain ⟨m', rc | next⟩ := answer
      · exact hnext
      · exact ih m' next hnext

theorem mapTables_reaches (hdistinct : DistinctTables space) (rest : List (Fin 512)) :
    ∀ (m : Machine τ σ) (path : List (Fin 512)) (frame : UInt64) (table : τ),
      path.length + rest.length ≤ 3 → TablesInv space m.mem →
      frameAt space m.mem path = some frame → tableFromPhys space frame = some table →
      (∀ event ∈ (mapTables space m table rest).1.log, FrameContract space event) →
      Reaches space m.mem (mapTables space m table rest).1.mem (path ++ rest)
        (mapTables space m table rest).2 := by
  induction rest with
  | nil =>
      intro m path frame table _ hinv hframe htable _
      rw [List.append_nil]
      exact ⟨hinv, fun _ => rfl, id, .inr ⟨frame, table, hframe, htable, rfl⟩⟩
  | cons i rest ih =>
      intro m path frame table hlen hinv hframe htable hcontract
      rw [List.length_cons] at hlen
      rw [List.append_cons]
      have hlevel := getOrAllocNextTable_reaches hinv hdistinct (by omega) hframe htable i
      rw [mapTables] at hcontract ⊢
      generalize getOrAllocNextTable space m table i = answer at hlevel hcontract
      obtain ⟨m', rc | next⟩ := answer
      · obtain ⟨hinv', hpages, hplain, ⟨hrc, hnone⟩ | ⟨_, _, _, _, hok⟩⟩ := hlevel hcontract
        · cases hrc
          exact ⟨hinv', hpages, hplain, .inl ⟨rfl, descend_append_of_none hnone rest⟩⟩
        · cases hok
      · have hlog : ∀ event ∈ m'.log, FrameContract space event := fun event hevent =>
          hcontract event (log_mapTables rest m' next hevent)
        obtain ⟨hinv', hpages, hplain, ⟨hrc, -⟩ | ⟨frame', table', hframe', htable', hok⟩⟩ :=
          hlevel hlog
        · cases hrc
        · cases hok
          have hlen' : (path ++ [i]).length + rest.length ≤ 3 := by
            rw [List.length_append, List.length_singleton]
            omega
          obtain ⟨hinv'', hpages', hplain', hfound⟩ :=
            ih m' (path ++ [i]) frame' next hlen' hinv' hframe' htable' hcontract
          exact ⟨hinv'', fun vaddr => (hpages' vaddr).trans (hpages vaddr),
            fun hold => hplain' (hplain hold), hfound⟩

end Alloc

/-- The pages of the virtual addresses; flags are those of the entry. -/
abbrev PageMap := PageAddress → Option (UInt64 × UInt64)

/-- The tables hold the pages of the map. -/
structure Holds (space : VmmSpace τ σ) (mem : Memory τ) (pages : PageMap) : Prop where
  inv : TablesInv space mem
  page : ∀ vaddr : PageAddress, pages vaddr = pageAt space mem vaddr

section Calls

variable {m : Machine τ σ} {pages : PageMap}

theorem Holds.queryPage (h : Holds space m.mem pages) (vaddr : PageAddress) :
    vmmQueryPage (some space) m.mem vaddr true =
      match pages vaddr with
      | some (paddr, flags) => .ok ⟨vaddr, paddr, flags⟩
      | none => .error .errNotFound := by
  rw [vmmQueryPage, vaddr.2.1, vaddr.2.2, if_neg (by decide), h.page, pageAt]
  rcases findPageTable_cases h.inv vaddr with
    ⟨hnone, hfind⟩ | ⟨frame, table, hframe, htable, hfind⟩
  · rw [hfind, hnone]
    rfl
  · rw [hfind, hframe, Option.bind_some, entryOf_eq htable, pageOf]
    dsimp only
    split
    · rfl
    · rfl

variable [DecidableEq τ]

theorem Holds.setPage (h : Holds space m.mem pages) (hdistinct : DistinctTables space)
    (vaddr : PageAddress) {frame : UInt64}
    (hframe : frameAt space m.mem (tablePath vaddr) = some frame) {table : τ}
    (htable : tableFromPhys space frame = some table) (entry : UInt64) :
    Holds space (setEntry m.mem table (idxPt vaddr) entry)
      (Function.update pages vaddr (pageOf entry)) := by
  refine ⟨h.inv.setPage hdistinct rfl hframe htable _ entry, fun vaddr' => ?_⟩
  rw [pageAt_setPage h.inv hdistinct vaddr.2 hframe htable entry vaddr'.2]
  rcases eq_or_ne vaddr' vaddr with rfl | hne
  · rw [Function.update_self, if_pos rfl]
  · rw [Function.update_of_ne hne, if_neg fun heq => hne (Subtype.ext heq), h.page]

theorem vmmMapPage_eq {root : τ} (hroot : tableFromPhys space space.rootPaddr = some root)
    {vaddr paddr : UInt64} (hpage : IsPage vaddr) (hpaddr : vmmIsAligned4k paddr = true)
    (flags : UInt64) :
    vmmMapPage (some space) m vaddr paddr flags =
      match mapTables space m root (tablePath vaddr) with
      | (m, .error rc) => (m, .error rc)
      | (m, .ok pt) => mapEntry m pt vaddr paddr flags := by
  rw [vmmMapPage, hpage.1, hpage.2, hpaddr, hroot]
  dsimp only [tablePath, mapTables]
  rw [if_neg (by decide)]
  rcases getOrAllocNextTable space m root (idxPml4 vaddr) with ⟨m, rc | pdpt⟩
  · rfl
  · dsimp only
    rcases getOrAllocNextTable space m pdpt (idxPdpt vaddr) with ⟨m, rc | pd⟩
    · rfl
    · dsimp only
      rcases getOrAllocNextTable space m pd (idxPd vaddr) with ⟨m, rc | pt⟩
      · rfl
      · rfl

/-- What `vmm_map_page` does for the address of a page: it makes the tables on the way, and
then looks at the entry of the page unless memory has run out. -/
theorem vmmMapPage_cases (hinv : TablesInv space m.mem) (hdistinct : DistinctTables space)
    {vaddr paddr : UInt64} (hpage : IsPage vaddr) (hpaddr : vmmIsAligned4k paddr = true)
    (flags : UInt64)
    (hcontract : ∀ event ∈ (vmmMapPage (some space) m vaddr paddr flags).1.log,
      FrameContract space event) :
    ∃ m', TablesInv space m'.mem ∧
      (∀ vaddr, pageAt space m'.mem vaddr = pageAt space m.mem vaddr) ∧
      (PlainTables space m.mem → PlainTables space m'.mem) ∧
      (frameAt space m'.mem (tablePath vaddr) = none ∧
          vmmMapPage (some space) m vaddr paddr flags = (m', .error .errNomem) ∨
        ∃ frame pt, frameAt space m'.mem (tablePath vaddr) = some frame ∧
          tableFromPhys space frame = some pt ∧
          vmmMapPage (some space) m vaddr paddr flags = mapEntry m' pt vaddr paddr flags) := by
  obtain ⟨root, hroot⟩ := hinv.backed [] space.rootPaddr (Nat.zero_le _) rfl
  have hreaches := mapTables_reaches hdistinct (tablePath vaddr) m [] space.rootPaddr root
    (Nat.le_refl 3) hinv rfl hroot
  rw [vmmMapPage_eq hroot hpage hpaddr] at hcontract ⊢
  generalize mapTables space m root (tablePath vaddr) = answer at hreaches hcontract
  obtain ⟨m', rc | pt⟩ := answer
  · obtain ⟨hinv', hpages, hplain, ⟨hrc, hnone⟩ | ⟨_, _, _, _, hok⟩⟩ := hreaches hcontract
    · cases hrc
      exact ⟨m', hinv', hpages, hplain, .inl ⟨hnone, rfl⟩⟩
    · cases hok
  · have hlog : ∀ event ∈ m'.log, FrameContract space event := by
      dsimp only at hcontract
      rw [mapEntry] at hcontract
      split at hcontract <;> exact hcontract
    obtain ⟨hinv', hpages, hplain, ⟨hrc, -⟩ | ⟨frame, table, hframe, htable, hok⟩⟩ := hreaches hlog
    · cases hrc
    · cases hok
      exact ⟨m', hinv', hpages, hplain, .inr ⟨frame, pt, hframe, htable, rfl⟩⟩

theorem Holds.mapPage (h : Holds space m.mem pages) (hdistinct : DistinctTables space)
    (vaddr : PageAddress) {paddr : UInt64} (hpaddr : vmmIsAligned4k paddr = true)
    (flags : UInt64)
    (hcontract : ∀ event ∈ (vmmMapPage (some space) m vaddr paddr flags).1.log,
      FrameContract space event) :
    (pages vaddr).isSome = true ∧
        (vmmMapPage (some space) m vaddr paddr flags).2 = .error .errExists ∧
        Holds space (vmmMapPage (some space) m vaddr paddr flags).1.mem pages ∨
      (pages vaddr).isSome = false ∧
        ((vmmMapPage (some space) m vaddr paddr flags).2 = .ok () ∧
            Holds space (vmmMapPage (some space) m vaddr paddr flags).1.mem
              (Function.update pages vaddr (pageOf (pageEntry paddr flags))) ∨
          (vmmMapPage (some space) m vaddr paddr flags).2 = .error .errNomem ∧
            Holds space (vmmMapPage (some space) m vaddr paddr flags).1.mem pages) := by
  obtain ⟨m', hinv, hpages, -, ⟨hnone, hmap⟩ | ⟨frame, pt, hframe, htable, hmap⟩⟩ :=
    vmmMapPage_cases h.inv hdistinct vaddr.2 hpaddr flags hcontract
  · have hempty : pages vaddr = none := by
      rw [h.page, ← hpages, pageAt, hnone]
      rfl
    rw [hmap]
    refine .inr ⟨by rw [hempty]; rfl, .inr ⟨rfl, hinv, fun v => ?_⟩⟩
    rw [h.page, hpages]
  · have hholds : Holds space m'.mem pages := ⟨hinv, fun v => by rw [h.page, hpages]⟩
    have hpage : pages vaddr = pageOf (m'.mem pt (idxPt vaddr)) := by
      rw [hholds.page, pageAt, hframe, Option.bind_some, entryOf_eq htable]
    rw [hmap, mapEntry, hpage, pageOf]
    by_cases habsent : m'.mem pt (idxPt vaddr) &&& vmmPtePresent = 0
    · rw [if_pos habsent, if_neg (not_not.mpr habsent)]
      refine .inr ⟨rfl, .inl ⟨rfl, ?_⟩⟩
      exact hholds.setPage hdistinct vaddr hframe htable (pageEntry paddr flags)
    · rw [if_neg habsent, if_pos habsent]
      exact .inl ⟨rfl, rfl, hholds⟩

theorem Holds.unmapPage (h : Holds space m.mem pages) (hdistinct : DistinctTables space)
    (vaddr : PageAddress) :
    (pages vaddr).isSome = true ∧ (vmmUnmapPage (some space) m vaddr).2 = .ok () ∧
        Holds space (vmmUnmapPage (some space) m vaddr).1.mem (Function.update pages vaddr none) ∨
      (pages vaddr).isSome = false ∧
        (vmmUnmapPage (some space) m vaddr).2 = .error .errNotFound ∧
        Holds space (vmmUnmapPage (some space) m vaddr).1.mem pages := by
  rw [vmmUnmapPage, vaddr.2.1, vaddr.2.2, if_neg (by decide), h.page, pageAt]
  rcases findPageTable_cases h.inv vaddr with
    ⟨hnone, hfind⟩ | ⟨frame, table, hframe, htable, hfind⟩
  · rw [hfind, hnone]
    exact .inr ⟨rfl, rfl, h⟩
  · rw [hfind, hframe, Option.bind_some, entryOf_eq htable, pageOf]
    dsimp only
    split
    · exact .inr ⟨rfl, rfl, h⟩
    · exact .inl ⟨rfl, rfl, h.setPage hdistinct vaddr hframe htable 0⟩

end Calls

inductive VmmCall where
  | mapPage (vaddr paddr flags : UInt64)
  | unmapPage (vaddr : UInt64)
  | queryPage (vaddr : UInt64) (out : Bool)
deriving DecidableEq, Repr

/-- The value that a call returns, and what it puts in the output. -/
structure VmmResult where
  ret : Int
  mapping : Option VmmMapping
deriving DecidableEq, Repr

def VmmResult.done : VmmResult := ⟨0, none⟩

def VmmResult.failed (rc : VmmError) : VmmResult := ⟨rc.code, none⟩

def VmmResult.of : Except VmmError Unit → VmmResult
  | .ok () => .done
  | .error rc => .failed rc

/-- What the calls do to the pages. -/
def pageSpec (pages : PageMap) (call : VmmCall) (result : VmmResult) (pages' : PageMap) : Prop :=
  match call with
  | .mapPage vaddr paddr flags =>
      if h : IsPage vaddr ∧ vmmIsAligned4k paddr = true then
        if (pages ⟨vaddr, h.1⟩).isSome then pages' = pages ∧ result = .failed .errExists
        else
          pages' = Function.update pages ⟨vaddr, h.1⟩
              (some (paddr, vmmPtePresent ||| (flags &&& allowedFlags))) ∧ result = .done ∨
            pages' = pages ∧ result = .failed .errNomem
      else pages' = pages ∧ result = .failed .errInval
  | .unmapPage vaddr =>
      if h : IsPage vaddr then
        if (pages ⟨vaddr, h⟩).isSome then
          pages' = Function.update pages ⟨vaddr, h⟩ none ∧ result = .done
        else pages' = pages ∧ result = .failed .errNotFound
      else pages' = pages ∧ result = .failed .errInval
  | .queryPage vaddr out =>
      pages' = pages ∧
        if h : out = true ∧ IsPage vaddr then
          match pages ⟨vaddr, h.2⟩ with
          | some (paddr, flags) => result = ⟨0, some ⟨vaddr, paddr, flags⟩⟩
          | none => result = .failed .errNotFound
        else result = .failed .errInval

section Runs

variable [DecidableEq τ] {m : Machine τ σ} {pages : PageMap}

def vmmStep (space : VmmSpace τ σ) (m : Machine τ σ) : VmmCall → Machine τ σ × VmmResult
  | .mapPage vaddr paddr flags =>
      let (m, result) := vmmMapPage (some space) m vaddr paddr flags
      (m, .of result)
  | .unmapPage vaddr =>
      let (m, result) := vmmUnmapPage (some space) m vaddr
      (m, .of result)
  | .queryPage vaddr out =>
      match vmmQueryPage (some space) m.mem vaddr out with
      | .ok mapping => (m, ⟨0, some mapping⟩)
      | .error rc => (m, .failed rc)

/-- A frame to be mapped has an address of at most 52 bits. -/
def NarrowPaddr : VmmCall → Prop
  | .mapPage _ paddr _ => paddr < 2 ^ 52
  | _ => True

/-- The allocator keeps its contract in every call that is made of it. -/
def vmmSystem (space : VmmSpace τ σ) : System (Machine τ σ) VmmCall VmmResult where
  allowed m call :=
    NarrowPaddr call ∧ ∀ event ∈ (vmmStep space m call).1.log, FrameContract space event
  step m call := some (vmmStep space m call)

theorem isPage_false {vaddr : UInt64} (h : ¬IsPage vaddr) :
    vmmIsCanonical vaddr = false ∨ vmmIsAligned4k vaddr = false := by
  rw [IsPage, not_and_or, Bool.not_eq_true, Bool.not_eq_true] at h
  exact h

theorem vmmMapPage_invalid {vaddr paddr : UInt64}
    (h : ¬(IsPage vaddr ∧ vmmIsAligned4k paddr = true)) (flags : UInt64) :
    vmmMapPage (some space) m vaddr paddr flags = (m, .error .errInval) := by
  rw [vmmMapPage, if_pos]
  rw [not_and_or, Bool.not_eq_true] at h
  rcases h with hpage | hpaddr
  · rcases isPage_false hpage with hcanonical | haligned
    · exact .inl hcanonical
    · exact .inr (.inl haligned)
  · exact .inr (.inr hpaddr)

theorem vmmUnmapPage_invalid {vaddr : UInt64} (h : ¬IsPage vaddr) :
    vmmUnmapPage (some space) m vaddr = (m, .error .errInval) := by
  rw [vmmUnmapPage, if_pos (isPage_false h)]

theorem Holds.mapPage_step (h : Holds space m.mem pages) (hdistinct : DistinctTables space)
    {vaddr paddr flags : UInt64} (hlt : paddr < 2 ^ 52)
    (hcontract : ∀ event ∈ (vmmStep space m (.mapPage vaddr paddr flags)).1.log,
      FrameContract space event) :
    ∃ pages', pageSpec pages (.mapPage vaddr paddr flags)
        (vmmStep space m (.mapPage vaddr paddr flags)).2 pages' ∧
      Holds space (vmmStep space m (.mapPage vaddr paddr flags)).1.mem pages' := by
  by_cases hvalid : IsPage vaddr ∧ vmmIsAligned4k paddr = true
  · have hspec := h.mapPage hdistinct ⟨vaddr, hvalid.1⟩ hvalid.2 flags hcontract
    rw [pageOf_pageEntry hvalid.2 hlt] at hspec
    simp only [pageSpec, dif_pos hvalid, vmmStep]
    rcases hspec with ⟨hsome, hresult, hholds⟩ | ⟨hnone, ⟨hresult, hholds⟩ | ⟨hresult, hholds⟩⟩
    · rw [hsome, hresult]
      exact ⟨_, ⟨rfl, rfl⟩, hholds⟩
    · rw [hnone, hresult]
      exact ⟨_, .inl ⟨rfl, rfl⟩, hholds⟩
    · rw [hnone, hresult]
      exact ⟨_, .inr ⟨rfl, rfl⟩, hholds⟩
  · simp only [pageSpec, dif_neg hvalid, vmmStep, vmmMapPage_invalid hvalid]
    exact ⟨pages, ⟨rfl, rfl⟩, h⟩

theorem Holds.unmapPage_step (h : Holds space m.mem pages) (hdistinct : DistinctTables space)
    (vaddr : UInt64) :
    ∃ pages', pageSpec pages (.unmapPage vaddr) (vmmStep space m (.unmapPage vaddr)).2 pages' ∧
      Holds space (vmmStep space m (.unmapPage vaddr)).1.mem pages' := by
  by_cases hpage : IsPage vaddr
  · have hspec := h.unmapPage hdistinct ⟨vaddr, hpage⟩
    simp only [pageSpec, dif_pos hpage, vmmStep]
    rcases hspec with ⟨hsome, hresult, hholds⟩ | ⟨hnone, hresult, hholds⟩
    · rw [hsome, hresult]
      exact ⟨_, ⟨rfl, rfl⟩, hholds⟩
    · rw [hnone, hresult]
      exact ⟨_, ⟨rfl, rfl⟩, hholds⟩
  · simp only [pageSpec, dif_neg hpage, vmmStep, vmmUnmapPage_invalid hpage]
    exact ⟨pages, ⟨rfl, rfl⟩, h⟩

theorem Holds.queryPage_step (h : Holds space m.mem pages) (vaddr : UInt64) (out : Bool) :
    ∃ pages', pageSpec pages (.queryPage vaddr out) (vmmStep space m (.queryPage vaddr out)).2
        pages' ∧
      Holds space (vmmStep space m (.queryPage vaddr out)).1.mem pages' := by
  refine ⟨pages, ⟨rfl, ?_⟩, ?_⟩
  · by_cases hvalid : out = true ∧ IsPage vaddr
    · obtain ⟨rfl, hpage⟩ := hvalid
      have hspec := h.queryPage ⟨vaddr, hpage⟩
      rw [dif_pos ⟨rfl, hpage⟩, vmmStep, hspec]
      rcases pages ⟨vaddr, hpage⟩ with _ | ⟨paddr, flags⟩
      · rfl
      · rfl
    · have hinval : vmmQueryPage (some space) m.mem vaddr out = .error .errInval := by
        rw [vmmQueryPage, if_pos]
        rw [not_and_or, Bool.not_eq_true] at hvalid
        exact hvalid.imp_right isPage_false
      rw [dif_neg hvalid, vmmStep, hinval]
  · rw [vmmStep]
    split <;> exact h

theorem Holds.step (h : Holds space m.mem pages) (hdistinct : DistinctTables space)
    {call : VmmCall} (hallowed : (vmmSystem space).allowed m call) :
    ∃ pages', pageSpec pages call (vmmStep space m call).2 pages' ∧
      Holds space (vmmStep space m call).1.mem pages' := by
  obtain ⟨hlt, hcontract⟩ := hallowed
  cases call with
  | mapPage vaddr paddr flags => exact h.mapPage_step hdistinct hlt hcontract
  | unmapPage vaddr => exact h.unmapPage_step hdistinct vaddr
  | queryPage vaddr out => exact h.queryPage_step vaddr out

/-- From a zero root on, all calls return what they return on a map from addresses to
pages, as long as the allocator keeps its contract. -/
theorem run_pageMap {rootPaddr : UInt64}
    {allocFrame : Option (σ → Memory τ → σ × Memory τ × UInt64)}
    {freeFrame : Option (σ → UInt64 → σ)} {physToVirt : UInt64 → Option τ}
    (hinit : vmmSpaceInit true rootPaddr allocFrame freeFrame (some physToVirt) = .ok space)
    (hdistinct : ∀ frame frame' table, vmmIsAligned4k frame = true → vmmIsAligned4k frame' = true →
      physToVirt frame = some table → physToVirt frame' = some table → frame = frame')
    {ctx : σ} {mem : Memory τ} {root : τ} (hroot : physToVirt rootPaddr = some root)
    (hzero : mem root = vmmZeroPage) {trace : List (VmmCall × VmmResult)}
    (hrun : Run (vmmSystem space) ⟨ctx, mem, []⟩ trace m) :
    ∃ pages, SpecRun pageSpec (fun _ => none) trace pages ∧ Holds space m.mem pages := by
  obtain ⟨hdistinct', htable, hempty⟩ := zeroRoot hinit hdistinct hroot hzero
  have hstart : Holds space mem fun _ => none :=
    ⟨tablesInv_zero ⟨root, htable⟩ hempty, fun vaddr => (pageAt_zero hempty vaddr).symm⟩
  refine hrun.simulation_total (fun _ _ => rfl) (fun m pages => Holds space m.mem pages) ?_ hstart
  intro m pages call h hallowed
  exact h.step hdistinct' hallowed

end Runs

/-- Tables are where their frames are, in the first 64 frames. -/
def hostPhysToVirt (paddr : UInt64) : Option UInt64 := if paddr < 0x40000 then some paddr else none

def dirtyPage : Page := fun _ => 0xa5a5a5a5a5a5a5a5

/-- Frames are handed out in order, full of old data. -/
def hostAlloc (next : UInt64) (mem : Memory UInt64) : UInt64 × Memory UInt64 × UInt64 :=
  if next < 0x40000 then (next + 0x1000, Function.update mem next dirtyPage, next)
  else (next, mem, vmmInvalidPhys)

def hostSpace : VmmSpace UInt64 UInt64 := ⟨0x1000, some hostAlloc, none, some hostPhysToVirt⟩

theorem hostPhysToVirt_eq {paddr table : UInt64} (h : hostPhysToVirt paddr = some table) :
    paddr = table := by
  rw [hostPhysToVirt] at h
  split at h
  · exact Option.some.inj h
  · cases h

theorem hostPhysToVirt_distinct (frame frame' table : UInt64) (_ : vmmIsAligned4k frame = true)
    (_ : vmmIsAligned4k frame' = true) (htable : hostPhysToVirt frame = some table)
    (htable' : hostPhysToVirt frame' = some table) : frame = frame' :=
  (hostPhysToVirt_eq htable).trans (hostPhysToVirt_eq htable').symm

theorem distinctTables_hostSpace : DistinctTables hostSpace := by
  intro frame frame' table htable htable'
  obtain ⟨haligned, hvirt⟩ := (tableFromPhys_eq_some_iff rfl).mp htable
  obtain ⟨haligned', hvirt'⟩ := (tableFromPhys_eq_some_iff rfl).mp htable'
  exact hostPhysToVirt_distinct frame frame' table haligned haligned' hvirt hvirt'

/-- A level of the tables, with all of them in frames before the next one. -/
structure HostLevel (mem : Memory UInt64) (path : List (Fin 512)) (frame next : UInt64) :
    Prop where
  inv : TablesInv hostSpace mem
  below : ∀ frame, IsTableFrame hostSpace mem frame → frame < next
  frame_eq : frameAt hostSpace mem path = some frame
  empty : ∀ i, entryOf hostSpace mem frame i = 0

/-- The memory after the next table was entered. -/
def hostMem (mem : Memory UInt64) (frame : UInt64) (i : Fin 512) (next : UInt64) : Memory UInt64 :=
  linkTable (Function.update mem next dirtyPage) frame i next next

theorem HostLevel.next {mem : Memory UInt64} {path : List (Fin 512)} {frame next : UInt64}
    (h : HostLevel mem path frame next) (hlen : path.length < 3) (i : Fin 512)
    (hnext : vmmIsAligned4k next = true ∧ next < 0x40000) :
    FrameContract hostSpace (.alloc mem (Function.update mem next dirtyPage) next) ∧
      HostLevel (hostMem mem frame i next) (path ++ [i]) next (next + 0x1000) := by
  have hfresh : ¬IsTableFrame hostSpace mem next := fun htable =>
    absurd (h.below next htable) (UInt64.lt_irrefl next)
  have hlt : next < 2 ^ 52 := UInt64.lt_trans hnext.2 (by decide)
  have htable : tableFromPhys hostSpace next = some next :=
    (tableFromPhys_eq_some_iff rfl).mpr ⟨hnext.1, if_pos hnext.2⟩
  have hframe : tableFromPhys hostSpace frame = some frame := by
    obtain ⟨table, htable⟩ := h.inv.backed path frame (Nat.le_of_lt hlen) h.frame_eq
    obtain rfl := hostPhysToVirt_eq ((tableFromPhys_eq_some_iff rfl).mp htable).2
    exact htable
  have hsame : SameTables hostSpace mem (Function.update mem next dirtyPage) := by
    intro frame' hframe' i
    rw [entryOf_update distinctTables_hostSpace htable, if_neg]
    rintro rfl
    exact hfresh hframe'
  have hinv := hsame.tablesInv h.inv
  have habsent : entryOf hostSpace mem frame i &&& vmmPtePresent = 0 := by
    rw [h.empty i]
    rfl
  have hlink := hsame.newTable hlen h.frame_eq hframe habsent htable (and_addrMask hnext.1 hlt)
    hfresh
  have hframes : ∀ path', path'.length ≤ 3 →
      frameAt hostSpace (hostMem mem frame i next) path' =
        if path' = path ++ [i] then some next
        else frameAt hostSpace (Function.update mem next dirtyPage) path' :=
    fun _ hlen' => hlink.frameAt hinv distinctTables_hostSpace hlen'
  have hstep : next < next + 0x1000 := by
    rw [UInt64.lt_iff_toNat_lt, UInt64.toNat_add, Nat.mod_eq_of_lt]
    · exact Nat.lt_add_of_pos_right (by decide)
    · exact Nat.lt_of_lt_of_le (Nat.add_lt_add_right hnext.2 _) (by decide)
  refine ⟨⟨hsame, .inr ⟨hnext.1, hlt, ⟨next, htable⟩, hfresh⟩⟩, ?_⟩
  refine ⟨hlink.tablesInv hinv distinctTables_hostSpace, ?_, ?_, ?_⟩
  · rintro frame' ⟨path', hlen', hframe'⟩
    rw [hframes path' hlen'] at hframe'
    split at hframe'
    · cases hframe'
      exact hstep
    · rw [hsame.frameAt hlen'] at hframe'
      exact UInt64.lt_trans (h.below frame' ⟨path', hlen', hframe'⟩) hstep
  · exact (hframes _ (length_concat_le hlen i)).trans (if_pos rfl)
  · intro j
    rw [hostMem, hlink.entryOf distinctTables_hostSpace, if_neg, if_pos rfl]
    rintro ⟨rfl, -⟩
    exact hfresh ⟨path, Nat.le_of_lt hlen, h.frame_eq⟩

def hostVaddr : UInt64 := 0xffff800000200000

/-- A page is mapped, looked up and unmapped. -/
def hostCalls : List VmmCall :=
  [.mapPage hostVaddr 0x300000 (vmmPteWritable ||| vmmPteHuge), .queryPage hostVaddr true,
    .mapPage hostVaddr 0x400000 0, .unmapPage hostVaddr, .queryPage hostVaddr true]

def hostTrace : List (VmmCall × VmmResult) :=
  hostCalls.zip [.done, ⟨0, some ⟨hostVaddr, 0x300000, 0x3⟩⟩, .failed .errExists, .done,
    .failed .errNotFound]

def hostStart : Machine UInt64 UInt64 := ⟨0x2000, fun _ => vmmZeroPage, []⟩

def hostLog : List (FrameEvent UInt64) :=
  let mem := hostStart.mem
  let mem' := hostMem mem 0x1000 (idxPml4 hostVaddr) 0x2000
  let mem'' := hostMem mem' 0x2000 (idxPdpt hostVaddr) 0x3000
  [.alloc mem (Function.update mem 0x2000 dirtyPage) 0x2000,
    .alloc mem' (Function.update mem' 0x3000 dirtyPage) 0x3000,
    .alloc mem'' (Function.update mem'' 0x4000 dirtyPage) 0x4000]

theorem contract_hostLog : ∀ event ∈ hostLog, FrameContract hostSpace event := by
  have hempty : ∀ i, entryOf hostSpace hostStart.mem hostSpace.rootPaddr i = 0 := fun _ => rfl
  have hlevel : HostLevel hostStart.mem [] 0x1000 0x2000 := by
    refine ⟨tablesInv_zero ⟨0x1000, rfl⟩ hempty, ?_, rfl, hempty⟩
    rintro frame ⟨path, -, hframe⟩
    rw [(frameAt_zero hempty hframe).2]
    decide
  obtain ⟨hfirst, hlevel⟩ := hlevel.next (by decide) (idxPml4 hostVaddr) (by decide)
  obtain ⟨hsecond, hlevel⟩ := hlevel.next (by decide) (idxPdpt hostVaddr) (by decide)
  obtain ⟨hthird, -⟩ := hlevel.next (by decide) (idxPd hostVaddr) (by decide)
  intro event hevent
  rcases List.mem_cons.mp hevent with rfl | hevent
  · exact hfirst
  · rcases List.mem_cons.mp hevent with rfl | hevent
    · exact hsecond
    · obtain rfl := List.mem_singleton.mp hevent
      exact hthird

theorem run_hostTrace :
    Run (vmmSystem hostSpace) hostStart hostTrace
      (hostCalls.foldl (fun m call => (vmmStep hostSpace m call).1) hostStart) := by
  have hpaddr : (0x300000 : UInt64) < 2 ^ 52 := by decide
  have hpaddr' : (0x400000 : UInt64) < 2 ^ 52 := by decide
  refine .cons ⟨hpaddr, contract_hostLog⟩ rfl (.cons ⟨trivial, contract_hostLog⟩ rfl ?_)
  refine .cons ⟨hpaddr', contract_hostLog⟩ rfl (.cons ⟨trivial, contract_hostLog⟩ rfl ?_)
  exact .cons ⟨trivial, contract_hostLog⟩ rfl (.nil _)

theorem run_pageMap_hostTrace :
    ∃ pages, SpecRun pageSpec (fun _ => none) hostTrace pages ∧
      Holds hostSpace
        (hostCalls.foldl (fun m call => (vmmStep hostSpace m call).1) hostStart).mem pages := by
  have hinit : vmmSpaceInit true 0x1000 (some hostAlloc) none (some hostPhysToVirt) =
      .ok hostSpace := rfl
  have hroot : hostPhysToVirt 0x1000 = some 0x1000 := rfl
  have hzero : hostStart.mem 0x1000 = vmmZeroPage := rfl
  exact run_pageMap hinit hostPhysToVirt_distinct hroot hzero run_hostTrace

end Mcsos.VmmRefinement

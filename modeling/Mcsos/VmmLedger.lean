import Mcsos.VmmRefinement

namespace Mcsos.VmmLedger

open Mcsos.CallSystem
open Mcsos.TableTree
open Mcsos.VmmModel
open Mcsos.VmmTables
open Mcsos.VmmRefinement

variable {τ σ : Type} {space : VmmSpace τ σ}

/-- What a call of a callback does to the frames that are held. -/
def ledgerStep (held : List UInt64) : FrameEvent τ → List UInt64
  | .alloc _ _ frame => if frame = vmmInvalidPhys then held else frame :: held
  | .free frame => held.erase frame

/-- The frames that were taken from the allocator and have not been given back. -/
def outstanding (log : List (FrameEvent τ)) : List UInt64 := log.foldl ledgerStep []

theorem outstanding_concat (log : List (FrameEvent τ)) (event : FrameEvent τ) :
    outstanding (log ++ [event]) = ledgerStep (outstanding log) event := by
  rw [outstanding, List.foldl_append]
  rfl

theorem outstanding_alloc_free (log : List (FrameEvent τ)) (before after : Memory τ)
    {frame : UInt64} (hvalid : frame ≠ vmmInvalidPhys) :
    outstanding (log ++ [.alloc before after frame] ++ [.free frame]) = outstanding log := by
  rw [outstanding_concat, outstanding_concat, ledgerStep, ledgerStep, if_neg hvalid,
    List.erase_cons_head]

/-- The tables are a tree, and their frames other than the root are the ones that are held. -/
structure Ledger (space : VmmSpace τ σ) (m : Machine τ σ) : Prop where
  inv : TablesInv space m.mem
  owned : ∀ frame, frame ∈ outstanding m.log ↔
    IsTableFrame space m.mem frame ∧ frame ≠ space.rootPaddr
  nodup : (outstanding m.log).Nodup

section Steps

variable {m m' : Machine τ σ}

theorem isTableFrame_root (mem : Memory τ) : IsTableFrame space mem space.rootPaddr :=
  ⟨[], Nat.zero_le _, rfl⟩

theorem isTableFrame_congr {mem mem' : Memory τ}
    (h : ∀ path, path.length ≤ 3 → frameAt space mem' path = frameAt space mem path)
    (frame : UInt64) : IsTableFrame space mem' frame ↔ IsTableFrame space mem frame := by
  refine exists_congr fun path => and_congr_right fun hlen => ?_
  rw [h path hlen]

theorem Ledger.congr (h : Ledger space m) (hinv : TablesInv space m'.mem)
    (hframes : ∀ path, path.length ≤ 3 → frameAt space m'.mem path = frameAt space m.mem path)
    (hheld : outstanding m'.log = outstanding m.log) : Ledger space m' := by
  refine ⟨hinv, fun frame => ?_, ?_⟩
  · rw [hheld, isTableFrame_congr hframes]
    exact h.owned frame
  · rw [hheld]
    exact h.nodup

variable [DecidableEq τ] {path : List (Fin 512)} {i : Fin 512} {frame newPaddr : UInt64}
  {table newTable : τ}

theorem isTableFrame_link {mem : Memory τ}
    (h : NewTable space mem path i frame table newPaddr newTable) (hinv : TablesInv space mem)
    (hdistinct : DistinctTables space) (frame' : UInt64) :
    IsTableFrame space (linkTable mem table i newTable newPaddr) frame' ↔
      frame' = newPaddr ∨ IsTableFrame space mem frame' := by
  constructor
  · rintro ⟨path', hlen, hframe'⟩
    rw [h.frameAt hinv hdistinct hlen] at hframe'
    split at hframe'
    · exact .inl (Option.some.inj hframe').symm
    · exact .inr ⟨path', hlen, hframe'⟩
  · rintro (rfl | ⟨path', hlen, hframe'⟩)
    · have hlen := length_concat_le h.above i
      exact ⟨path ++ [i], hlen, (h.frameAt hinv hdistinct hlen).trans (if_pos rfl)⟩
    · refine ⟨path', hlen, ?_⟩
      rw [h.frameAt hinv hdistinct hlen, if_neg, hframe']
      rintro rfl
      rw [frameAt_concat, h.frame_eq, Option.bind_some, nextFrame, if_pos h.absent] at hframe'
      cases hframe'

theorem Ledger.link (h : Ledger space m) (hdistinct : DistinctTables space)
    (hnew : NewTable space m.mem path i frame table newPaddr newTable)
    (hmem : m'.mem = linkTable m.mem table i newTable newPaddr)
    (hheld : outstanding m'.log = newPaddr :: outstanding m.log) : Ledger space m' := by
  have hroot : newPaddr ≠ space.rootPaddr := by
    rintro rfl
    exact hnew.fresh (isTableFrame_root m.mem)
  have hunheld : newPaddr ∉ outstanding m.log := fun hheld =>
    hnew.fresh ((h.owned newPaddr).mp hheld).1
  refine ⟨?_, fun frame' => ?_, ?_⟩
  · rw [hmem]
    exact hnew.tablesInv h.inv hdistinct
  · rw [hmem, hheld, List.mem_cons, isTableFrame_link hnew h.inv hdistinct, h.owned frame']
    constructor
    · rintro (rfl | ⟨hframe', hne⟩)
      · exact ⟨.inl rfl, hroot⟩
      · exact ⟨.inr hframe', hne⟩
    · rintro ⟨rfl | hframe', hne⟩
      · exact .inl rfl
      · exact .inr ⟨hframe', hne⟩
  · rw [hheld, List.nodup_cons]
    exact ⟨hunheld, h.nodup⟩

theorem Ledger.setPage (h : Ledger space m) (hdistinct : DistinctTables space)
    (hlen : path.length = 3) (hframe : frameAt space m.mem path = some frame)
    (htable : tableFromPhys space frame = some table) (entry : UInt64) :
    Ledger space { m with mem := setEntry m.mem table i entry } :=
  h.congr (h.inv.setPage hdistinct hlen hframe htable i entry)
    (frameAt_congr (frameAt_setPage h.inv hdistinct hlen hframe htable i entry)) rfl

end Steps

/-- The space with a translation that fails for all frames but some. -/
def restrict (space : VmmSpace τ σ) (backed : UInt64 → Bool) : VmmSpace τ σ :=
  { space with
    physToVirt := space.physToVirt.map fun physToVirt paddr =>
      if backed paddr then physToVirt paddr else none }

section Restrict

variable {backed : UInt64 → Bool} {mem mem' : Memory τ}

theorem tableFromPhys_restrict (frame : UInt64) :
    tableFromPhys (restrict space backed) frame =
      if backed frame then tableFromPhys space frame else none := by
  rw [tableFromPhys, tableFromPhys, restrict]
  rcases space.physToVirt with _ | physToVirt
  · rw [ite_self]
    rfl
  · rw [Option.map_some]
    dsimp only
    cases backed frame
    · rw [if_neg Bool.false_ne_true, if_neg Bool.false_ne_true, ite_self]
    · rw [if_pos rfl, if_pos rfl]

theorem tableFromPhys_of_restrict {frame : UInt64} {table : τ}
    (h : tableFromPhys (restrict space backed) frame = some table) :
    tableFromPhys space frame = some table := by
  rw [tableFromPhys_restrict] at h
  split at h
  · exact h
  · cases h

theorem distinctTables_restrict (h : DistinctTables space) (backed : UInt64 → Bool) :
    DistinctTables (restrict space backed) :=
  fun frame frame' table htable htable' =>
    h frame frame' table (tableFromPhys_of_restrict htable) (tableFromPhys_of_restrict htable')

theorem entryOf_restrict {frame : UInt64}
    (h : ∃ table, tableFromPhys (restrict space backed) frame = some table) (mem : Memory τ)
    (i : Fin 512) : entryOf space mem frame i = entryOf (restrict space backed) mem frame i := by
  obtain ⟨table, htable⟩ := h
  rw [entryOf_eq htable, entryOf_eq (tableFromPhys_of_restrict htable)]

theorem frameAt_restrict (hinv : TablesInv (restrict space backed) mem) :
    ∀ path, path.length ≤ 3 →
      frameAt space mem path = frameAt (restrict space backed) mem path := by
  refine descend_congr fun path frame hlen hframe i => ?_
  rw [nextFrame, nextFrame, entryOf_restrict (hinv.backed path frame (Nat.le_of_lt hlen) hframe)]

theorem isTableFrame_restrict (hinv : TablesInv (restrict space backed) mem) (frame : UInt64) :
    IsTableFrame space mem frame ↔ IsTableFrame (restrict space backed) mem frame := by
  refine exists_congr fun path => and_congr_right fun hlen => ?_
  rw [frameAt_restrict hinv path hlen]

theorem sameTables_restrict (hinv : TablesInv (restrict space backed) mem)
    (h : SameTables space mem mem') : SameTables (restrict space backed) mem mem' := by
  intro frame hframe i
  have hframe' := (isTableFrame_restrict hinv frame).mpr hframe
  obtain ⟨path, hlen, hpath⟩ := hframe
  have htable := hinv.backed path frame hlen hpath
  rw [← entryOf_restrict htable, ← entryOf_restrict htable]
  exact h frame hframe' i

theorem Ledger.of_restrict {m : Machine τ σ} (h : Ledger (restrict space backed) m) :
    Ledger space m := by
  have hframes := frameAt_restrict h.inv
  refine ⟨⟨h.inv.tree.congr hframes, ?_, ?_⟩, fun frame => ?_, h.nodup⟩
  · intro path frame hlen hframe
    rw [hframes path hlen] at hframe
    obtain ⟨table, htable⟩ := h.inv.backed path frame hlen hframe
    exact ⟨table, tableFromPhys_of_restrict htable⟩
  · intro path frame i hlen hframe
    rw [hframes path (Nat.le_of_lt hlen)] at hframe
    rw [entryOf_restrict (h.inv.backed path frame (Nat.le_of_lt hlen) hframe)]
    exact h.inv.small path frame i hlen hframe
  · rw [isTableFrame_restrict h.inv]
    exact h.owned frame

theorem Ledger.restrict {m : Machine τ σ} (h : Ledger space m)
    (hbacked : ∀ frame, IsTableFrame space m.mem frame → backed frame = true) :
    Ledger (VmmLedger.restrict space backed) m := by
  have htables : ∀ path frame, path.length ≤ 3 → frameAt space m.mem path = some frame →
      ∃ table, tableFromPhys (VmmLedger.restrict space backed) frame = some table := by
    intro path frame hlen hframe
    rw [tableFromPhys_restrict, if_pos (hbacked frame ⟨path, hlen, hframe⟩)]
    exact h.inv.backed path frame hlen hframe
  have hframes : ∀ path, path.length ≤ 3 →
      frameAt (VmmLedger.restrict space backed) m.mem path = frameAt space m.mem path := by
    refine descend_congr fun path frame hlen hframe i => ?_
    rw [nextFrame, nextFrame, entryOf_restrict (htables path frame (Nat.le_of_lt hlen) hframe)]
  have hinv : TablesInv (VmmLedger.restrict space backed) m.mem := by
    refine ⟨h.inv.tree.congr hframes, ?_, ?_⟩
    · intro path frame hlen hframe
      rw [hframes path hlen] at hframe
      exact htables path frame hlen hframe
    · intro path frame i hlen hframe
      rw [hframes path (Nat.le_of_lt hlen)] at hframe
      rw [← entryOf_restrict (htables path frame (Nat.le_of_lt hlen) hframe)]
      exact h.inv.small path frame i hlen hframe
  refine ⟨hinv, fun frame => ?_, h.nodup⟩
  rw [← isTableFrame_restrict hinv]
  exact h.owned frame

end Restrict

/-- What the allocator promises: it does not touch the tables, and a frame that it returns is
none of them. -/
def FreshFrame (space : VmmSpace τ σ) : FrameEvent τ → Prop
  | .alloc before after frame =>
      SameTables space before after ∧
        (frame = vmmInvalidPhys ∨
          vmmIsAligned4k frame = true ∧ frame < 2 ^ 52 ∧ ¬IsTableFrame space before frame)
  | .free _ => True

/-- A level of the walk has been done, with a table at the end of the path unless it failed. -/
structure Level (space : VmmSpace τ σ) (m : Machine τ σ) (path : List (Fin 512))
    (result : Except VmmError τ) : Prop where
  ledger : Ledger space m
  found : ∀ table, result = .ok table →
    ∃ frame, frameAt space m.mem path = some frame ∧ tableFromPhys space frame = some table

theorem Level.failed {m : Machine τ σ} (h : Ledger space m) (path : List (Fin 512))
    (rc : VmmError) : Level space m path (.error rc) := by
  refine ⟨h, fun table hok => ?_⟩
  cases hok

theorem Level.reached {m : Machine τ σ} (h : Ledger space m) {path : List (Fin 512)}
    {frame : UInt64} (hframe : frameAt space m.mem path = some frame) {table : τ}
    (htable : tableFromPhys space frame = some table) : Level space m path (.ok table) := by
  refine ⟨h, fun table' hok => ?_⟩
  cases hok
  exact ⟨frame, hframe, htable⟩

section Alloc

variable [DecidableEq τ] {backed : UInt64 → Bool} {m : Machine τ σ}

theorem allocNextTable_level (h : Ledger (restrict space backed) m)
    (hdistinct : DistinctTables (restrict space backed))
    {freeFrame : σ → UInt64 → σ} (hfree : (restrict space backed).freeFrame = some freeFrame)
    {path : List (Fin 512)} (hlen : path.length < 3) {frame : UInt64}
    (hframe : frameAt (restrict space backed) m.mem path = some frame) {table : τ}
    (htable : tableFromPhys (restrict space backed) frame = some table) {i : Fin 512}
    (habsent : entryOf (restrict space backed) m.mem frame i &&& vmmPtePresent = 0)
    (hcontract : ∀ event ∈ (allocNextTable (restrict space backed) m table i).1.log,
      FreshFrame space event) :
    Level (restrict space backed) (allocNextTable (restrict space backed) m table i).1
      (path ++ [i]) (allocNextTable (restrict space backed) m table i).2 := by
  rcases hnull : (restrict space backed).allocFrame with _ | allocFrame
  · rw [allocNextTable, hnull]
    exact .failed h _ _
  · obtain ⟨hsame, hframe'⟩ := hcontract _ (log_allocNextTable table i (.inr ⟨_, hnull, rfl⟩))
    replace hsame := sameTables_restrict h.inv hsame
    rw [isTableFrame_restrict h.inv] at hframe'
    rw [allocNextTable, hnull]
    dsimp only
    generalize allocFrame m.ctx m.mem = answer at hsame hframe'
    obtain ⟨ctx, mem, newPaddr⟩ := answer
    dsimp only at hsame hframe' ⊢
    have hinv := hsame.tablesInv h.inv
    have hkept : ∀ (ctx : σ) (log : List (FrameEvent τ)), outstanding log = outstanding m.log →
        Ledger (restrict space backed) ⟨ctx, mem, log⟩ :=
      fun _ _ hheld => h.congr hinv (fun _ => hsame.frameAt) hheld
    split
    case isTrue hinvalid =>
      refine .failed (hkept _ _ ?_) _ _
      have hfailed : newPaddr = vmmInvalidPhys := by
        rcases hframe' with hfailed | ⟨haligned, -⟩
        · exact hfailed
        · rw [haligned] at hinvalid
          exact hinvalid.resolve_right (by decide)
      rw [outstanding_concat, ledgerStep, if_pos hfailed]
    case isFalse hvalid =>
      rw [not_or] at hvalid
      obtain ⟨haligned, hlt, hfresh⟩ := hframe'.resolve_left hvalid.1
      rcases hnew : tableFromPhys (restrict space backed) newPaddr with _ | newTable
      · rw [hfree]
        exact .failed (hkept _ _ (outstanding_alloc_free m.log m.mem mem hvalid.1)) _ _
      · have hlink := hsame.newTable hlen hframe htable habsent hnew (and_addrMask haligned hlt)
          hfresh
        refine .reached ((hkept ctx m.log rfl).link hdistinct hlink rfl ?_) ?_ hnew
        · rw [outstanding_concat, ledgerStep, if_neg hvalid.1]
        · exact (hlink.frameAt hinv hdistinct (length_concat_le hlen i)).trans (if_pos rfl)

theorem getOrAllocNextTable_level (h : Ledger (restrict space backed) m)
    (hdistinct : DistinctTables (restrict space backed))
    {freeFrame : σ → UInt64 → σ} (hfree : (restrict space backed).freeFrame = some freeFrame)
    {path : List (Fin 512)} (hlen : path.length < 3) {frame : UInt64}
    (hframe : frameAt (restrict space backed) m.mem path = some frame) {table : τ}
    (htable : tableFromPhys (restrict space backed) frame = some table) (i : Fin 512)
    (hcontract : ∀ event ∈ (getOrAllocNextTable (restrict space backed) m table i).1.log,
      FreshFrame space event) :
    Level (restrict space backed) (getOrAllocNextTable (restrict space backed) m table i).1
      (path ++ [i]) (getOrAllocNextTable (restrict space backed) m table i).2 := by
  rcases getOrAllocNextTable_cases h.inv hlen hframe htable i with
    ⟨frame', table', hframe', htable', hget⟩ | ⟨habsent, hget⟩
  · rw [hget]
    exact .reached h hframe' htable'
  · rw [hget] at hcontract ⊢
    exact allocNextTable_level h hdistinct hfree hlen hframe htable habsent hcontract

theorem mapTables_level (hdistinct : DistinctTables (restrict space backed))
    {freeFrame : σ → UInt64 → σ} (hfree : (restrict space backed).freeFrame = some freeFrame)
    (rest : List (Fin 512)) :
    ∀ (m : Machine τ σ) (path : List (Fin 512)) (frame : UInt64) (table : τ),
      path.length + rest.length ≤ 3 → Ledger (restrict space backed) m →
      frameAt (restrict space backed) m.mem path = some frame →
      tableFromPhys (restrict space backed) frame = some table →
      (∀ event ∈ (mapTables (restrict space backed) m table rest).1.log, FreshFrame space event) →
      Level (restrict space backed) (mapTables (restrict space backed) m table rest).1
        (path ++ rest) (mapTables (restrict space backed) m table rest).2 := by
  induction rest with
  | nil =>
      intro m path frame table _ h hframe htable _
      rw [List.append_nil]
      exact .reached h hframe htable
  | cons i rest ih =>
      intro m path frame table hlen h hframe htable hcontract
      rw [List.length_cons] at hlen
      rw [List.append_cons]
      have hlevel := getOrAllocNextTable_level h hdistinct hfree (by omega) hframe htable i
      rw [mapTables] at hcontract ⊢
      generalize getOrAllocNextTable (restrict space backed) m table i = answer
        at hlevel hcontract
      obtain ⟨m', rc | next⟩ := answer
      · exact .failed (hlevel hcontract).ledger _ rc
      · obtain ⟨h', hfound⟩ := hlevel fun event hevent =>
          hcontract event (log_mapTables rest m' next hevent)
        obtain ⟨frame', hframe', htable'⟩ := hfound next rfl
        have hlen' : (path ++ [i]).length + rest.length ≤ 3 := by
          rw [List.length_append, List.length_singleton]
          omega
        exact ih m' (path ++ [i]) frame' next hlen' h' hframe' htable' hcontract

theorem Ledger.mapPage (h : Ledger (VmmLedger.restrict space backed) m)
    (hdistinct : DistinctTables (VmmLedger.restrict space backed))
    {freeFrame : σ → UInt64 → σ} (hfree : space.freeFrame = some freeFrame)
    (vaddr paddr flags : UInt64)
    (hcontract : ∀ event ∈
        (vmmMapPage (some (VmmLedger.restrict space backed)) m vaddr paddr flags).1.log,
      FreshFrame space event) :
    Ledger (VmmLedger.restrict space backed)
      (vmmMapPage (some (VmmLedger.restrict space backed)) m vaddr paddr flags).1 := by
  by_cases hvalid : IsPage vaddr ∧ vmmIsAligned4k paddr = true
  · obtain ⟨root, hroot⟩ := h.inv.backed [] _ (Nat.zero_le _) rfl
    have hlevel := mapTables_level hdistinct hfree (tablePath vaddr) m [] _ root (Nat.le_refl 3)
      h rfl hroot
    rw [vmmMapPage_eq hroot hvalid.1 hvalid.2] at hcontract ⊢
    generalize mapTables (VmmLedger.restrict space backed) m root (tablePath vaddr) = answer
      at hlevel hcontract
    obtain ⟨m', rc | pt⟩ := answer
    · exact (hlevel hcontract).ledger
    · dsimp only [mapEntry] at hlevel hcontract ⊢
      split
      case isTrue hpresent =>
        rw [if_pos hpresent] at hcontract
        exact (hlevel hcontract).ledger
      case isFalse habsent =>
        rw [if_neg habsent] at hcontract
        obtain ⟨h', hfound⟩ := hlevel hcontract
        obtain ⟨frame, hframe, htable⟩ := hfound pt rfl
        exact h'.setPage hdistinct rfl hframe htable _
  · rw [vmmMapPage_invalid hvalid]
    exact h

theorem Ledger.unmapPage (h : Ledger space m) (hdistinct : DistinctTables space)
    (vaddr : UInt64) : Ledger space (vmmUnmapPage (some space) m vaddr).1 := by
  by_cases hpage : IsPage vaddr
  · rw [vmmUnmapPage, hpage.1, hpage.2, if_neg (by decide)]
    rcases findPageTable_cases h.inv vaddr with
      ⟨-, hfind⟩ | ⟨frame, table, hframe, htable, hfind⟩
    · rw [hfind]
      exact h
    · rw [hfind]
      dsimp only
      split
      · exact h
      · exact h.setPage hdistinct rfl hframe htable 0
  · rw [vmmUnmapPage_invalid hpage]
    exact h

end Alloc

/-- A call, and the frames for which the translation does not fail during the call. -/
structure LedgerCall where
  backed : UInt64 → Bool
  call : VmmCall

section Runs

variable [DecidableEq τ] {m : Machine τ σ}

def ledgerNext (space : VmmSpace τ σ) (m : Machine τ σ) (c : LedgerCall) :
    Machine τ σ × VmmResult :=
  vmmStep (restrict space c.backed) m c.call

/-- The translation does not fail for the tables, and the allocator keeps its contract in
every call that is made of it. -/
def ledgerSystem (space : VmmSpace τ σ) : System (Machine τ σ) LedgerCall VmmResult where
  allowed m c :=
    (∀ frame, IsTableFrame space m.mem frame → c.backed frame = true) ∧
      ∀ event ∈ (ledgerNext space m c).1.log, FreshFrame space event
  step m c := some (ledgerNext space m c)

theorem Ledger.next (h : Ledger space m) (hdistinct : DistinctTables space)
    {freeFrame : σ → UInt64 → σ} (hfree : space.freeFrame = some freeFrame) {c : LedgerCall}
    (hallowed : (ledgerSystem space).allowed m c) : Ledger space (ledgerNext space m c).1 := by
  obtain ⟨backed, call⟩ := c
  obtain ⟨hbacked, hcontract⟩ := hallowed
  have hledger := h.restrict hbacked
  have hdistinct' := distinctTables_restrict hdistinct backed
  have hnext : Ledger (VmmLedger.restrict space backed) (ledgerNext space m ⟨backed, call⟩).1 := by
    cases call with
    | mapPage vaddr paddr flags =>
        exact hledger.mapPage hdistinct' hfree vaddr paddr flags hcontract
    | unmapPage vaddr => exact hledger.unmapPage hdistinct' vaddr
    | queryPage vaddr out =>
        rw [ledgerNext, vmmStep]
        split <;> exact hledger
  exact hnext.of_restrict

/-- The entries that refer to a table, as the frame they are in and their index. -/
def RefersTo (space : VmmSpace τ σ) (mem : Memory τ) (frame : UInt64)
    (place : UInt64 × Fin 512) : Prop :=
  (∃ path, path.length < 3 ∧ frameAt space mem path = some place.1) ∧
    nextFrame space mem place.1 place.2 = some frame

/-- From a zero root on, whatever calls are made and however they end, the tables are a tree,
every one but the root is referred to by one entry, and their frames are the ones that were
taken from the allocator and not given back. -/
theorem run_ledger {rootPaddr : UInt64}
    {allocFrame : Option (σ → Memory τ → σ × Memory τ × UInt64)} {freeFrame : σ → UInt64 → σ}
    {physToVirt : UInt64 → Option τ}
    (hinit : vmmSpaceInit true rootPaddr allocFrame (some freeFrame) (some physToVirt) = .ok space)
    (hdistinct : ∀ frame frame' table, vmmIsAligned4k frame = true → vmmIsAligned4k frame' = true →
      physToVirt frame = some table → physToVirt frame' = some table → frame = frame')
    {ctx : σ} {mem : Memory τ} {root : τ} (hroot : physToVirt rootPaddr = some root)
    (hzero : mem root = vmmZeroPage) {trace : List (LedgerCall × VmmResult)}
    (hrun : Run (ledgerSystem space) ⟨ctx, mem, []⟩ trace m) :
    IsTree (nextFrame space m.mem) space.rootPaddr 3 ∧
      (∀ frame, IsTableFrame space m.mem frame → frame ≠ space.rootPaddr →
        ∃! place, RefersTo space m.mem frame place) ∧
      (∀ frame, frame ∈ outstanding m.log ↔
        IsTableFrame space m.mem frame ∧ frame ≠ space.rootPaddr) ∧
      (outstanding m.log).Nodup := by
  obtain ⟨hdistinct', htable, hempty⟩ := zeroRoot hinit hdistinct hroot hzero
  have hfree := (vmmSpaceInit_ok hinit).2.2.2
  have hstart : Ledger space ⟨ctx, mem, []⟩ := by
    refine ⟨tablesInv_zero ⟨root, htable⟩ hempty, fun frame => ?_, List.nodup_nil⟩
    refine iff_of_false List.not_mem_nil ?_
    rintro ⟨⟨path, -, hframe⟩, hne⟩
    exact hne (frameAt_zero hempty hframe).2
  have hledger : Ledger space m := by
    refine hrun.invariant_total (fun _ _ => rfl) (Ledger space) ?_ hstart
    intro m c h hallowed
    exact h.next hdistinct' hfree hallowed
  refine ⟨hledger.inv.tree, ?_, hledger.owned, hledger.nodup⟩
  rintro frame ⟨path, hlen, hframe⟩ hne
  exact hledger.inv.tree.existsUnique_parent hlen hframe hne

end Runs

def ledgerSpace : VmmSpace UInt64 UInt64 := { hostSpace with freeFrame := some fun next _ => next }

/-- The second of the three tables that are missing gets a frame without a page in memory. -/
def partialCall : LedgerCall := ⟨fun frame => frame != 0x3000, .mapPage hostVaddr 0x300000 0⟩

theorem allowed_partialCall : (ledgerSystem ledgerSpace).allowed hostStart partialCall := by
  have hempty : ∀ i, entryOf ledgerSpace hostStart.mem ledgerSpace.rootPaddr i = 0 := fun _ => rfl
  refine ⟨?_, ?_⟩
  · rintro frame ⟨path, -, hframe⟩
    rw [(frameAt_zero hempty hframe).2]
    rfl
  · change ∀ event ∈ hostLog.take 2 ++ [.free 0x3000], FreshFrame ledgerSpace event
    intro event hevent
    rcases List.mem_append.mp hevent with htaken | hfreed
    · have hcontract := contract_hostLog event (List.mem_of_mem_take htaken)
      cases event with
      | alloc before after frame =>
          obtain ⟨hsame, hframe⟩ := hcontract
          exact ⟨hsame, hframe.imp_right fun h => ⟨h.1, h.2.1, h.2.2.2⟩⟩
      | free frame => trivial
    · obtain rfl := List.mem_singleton.mp hfreed
      trivial

theorem run_ledger_partialCall :
    (ledgerNext ledgerSpace hostStart partialCall).2 = .failed .errInval ∧
      ∀ frame, frame ∈ [0x2000] ↔
        IsTableFrame ledgerSpace (ledgerNext ledgerSpace hostStart partialCall).1.mem frame ∧
          frame ≠ 0x1000 := by
  have hinit : vmmSpaceInit true 0x1000 (some hostAlloc) (some fun next _ => next)
      (some hostPhysToVirt) = .ok ledgerSpace := rfl
  have hledger := run_ledger hinit hostPhysToVirt_distinct rfl rfl
    (.cons allowed_partialCall rfl (.nil _))
  exact ⟨rfl, hledger.2.2.1⟩

end Mcsos.VmmLedger

import Mcsos.CallSystem
import Mcsos.FdModel

namespace Mcsos.VfsInvariant

open Mcsos.CallSystem
open Mcsos.RamfsModel
open Mcsos.FdModel

/-- Node `i` is a file in the root directory, with the extent that creation gave it. -/
structure FileNode (node : McsVnode) (i : Nat) : Prop where
  type : node.type = .file
  parent : node.parent = 0
  dataOffset : node.dataOffset = fileCapacity * (i - 1)
  dataCapacity : node.dataCapacity = fileCapacity
  size : node.size ≤ fileCapacity

structure RamfsInv (fs : McsRamfs) : Prop where
  count_pos : 0 < fs.nodeCount
  used_iff : ∀ i, i < mcsMaxNodes → ((fs.nodes i).used = true ↔ i < fs.nodeCount)
  id_eq : ∀ i, i < fs.nodeCount → (fs.nodes i).id = i
  root : (fs.nodes 0).type = .dir
  file : ∀ i, 0 < i → i < fs.nodeCount → FileNode (fs.nodes i) i
  dataUsed_eq : fs.dataUsed = fileCapacity * (fs.nodeCount - 1)
  dataUsed_le : fs.dataUsed ≤ mcsRamfsDataBytes

theorem ramfsInv_init (fs : McsRamfs) : RamfsInv (mcsRamfsInit fs) where
  count_pos := Nat.one_pos
  used_iff i hi := by
    rcases Nat.eq_zero_or_pos i with rfl | hpos
    · simp [mcsRamfsInit]
    · have hne : i ≠ 0 := by omega
      simp [mcsRamfsInit, hne, hi, clearedNode]
  id_eq i hi := by
    obtain rfl : i = 0 := Nat.lt_one_iff.mp hi
    simp [mcsRamfsInit]
  root := by simp [mcsRamfsInit]
  file i hpos hi := absurd hi (Nat.not_lt.mpr hpos)
  dataUsed_eq := rfl
  dataUsed_le := Nat.zero_le _

section Ramfs

variable {fs : McsRamfs}

theorem RamfsInv.eq_zero_of_dir (h : RamfsInv fs) {i : Nat} (hi : i < fs.nodeCount)
    (hdir : (fs.nodes i).type = .dir) : i = 0 := by
  rcases Nat.eq_zero_or_pos i with rfl | hpos
  · rfl
  · rw [(h.file i hpos hi).type] at hdir
    cases hdir

theorem RamfsInv.pos_of_file (h : RamfsInv fs) {i : Nat} (hfile : ¬(fs.nodes i).type = .dir) :
    0 < i := by
  rcases Nat.eq_zero_or_pos i with rfl | hpos
  · exact absurd h.root hfile
  · exact hpos

theorem RamfsInv.setData (h : RamfsInv fs) (data : Nat → UInt8) :
    RamfsInv { fs with data := data } :=
  ⟨h.count_pos, h.used_iff, h.id_eq, h.root, h.file, h.dataUsed_eq, h.dataUsed_le⟩

theorem RamfsInv.setSize (h : RamfsInv fs) {n size : Nat} (hn : 0 < n)
    (hsize : size ≤ fileCapacity) : RamfsInv (fs.setSize n size) where
  count_pos := h.count_pos
  used_iff i hi := by
    rcases eq_or_ne i n with rfl | hne
    · simpa [McsRamfs.setSize] using h.used_iff i hi
    · simpa [McsRamfs.setSize, hne] using h.used_iff i hi
  id_eq i hi := by
    rcases eq_or_ne i n with rfl | hne
    · simpa [McsRamfs.setSize] using h.id_eq i hi
    · simpa [McsRamfs.setSize, hne] using h.id_eq i hi
  root := by
    have hne : 0 ≠ n := by omega
    simpa [McsRamfs.setSize, hne] using h.root
  file i hpos hi := by
    rcases eq_or_ne i n with rfl | hne
    · obtain ⟨htype, hparent, hoffset, hcap, -⟩ := h.file i hpos hi
      simp only [McsRamfs.setSize, Function.update_self]
      exact ⟨htype, hparent, hoffset, hcap, hsize⟩
    · simpa [McsRamfs.setSize, hne] using h.file i hpos hi
  dataUsed_eq := h.dataUsed_eq
  dataUsed_le := h.dataUsed_le

theorem mcsFindChild_lt {parent nameLen i : Nat} {name : List UInt8}
    (h : mcsFindChild fs parent name nameLen = .ok i) : i < fs.nodeCount := by
  unfold mcsFindChild at h
  split at h
  · cases h
  · split at h
    case h_1 j hfind =>
      cases h
      exact List.mem_range.mp (List.mem_of_find?_eq_some hfind)
    · cases h

theorem lookupLoop_lt {cur fuel i : Nat} {seg : List UInt8}
    (h : lookupLoop fs cur seg fuel = .ok i) : i < fs.nodeCount := by
  induction fuel generalizing cur seg with
  | zero => cases h
  | succ fuel ih =>
      rw [lookupLoop] at h
      split at h
      · cases h
      · dsimp only at h
        split at h
        · cases h
        · split at h
          · cases h
          case h_2 child hchild =>
            split at h
            · cases h
              exact mcsFindChild_lt hchild
            · split at h
              · cases h
              · exact ih h

theorem mcsRamfsLookup_lt (hpos : 0 < fs.nodeCount) {path : Option (List UInt8)} {i : Nat}
    (h : mcsRamfsLookup fs path = .ok i) : i < fs.nodeCount := by
  unfold mcsRamfsLookup at h
  split at h
  · cases h
  · split at h
    · cases h
    · split at h
      · cases h
      · split at h
        · cases h
          exact hpos
        · exact lookupLoop_lt h

theorem splitLoop_lt {cur fuel parent leafLen : Nat} {seg leaf : List UInt8}
    (hcur : cur < fs.nodeCount) (h : splitLoop fs cur seg fuel = .ok (parent, leaf, leafLen)) :
    parent < fs.nodeCount := by
  induction fuel generalizing cur seg with
  | zero => cases h
  | succ fuel ih =>
      rw [splitLoop] at h
      split at h
      · cases h
      · split at h
        · cases h
          exact hcur
        · split at h
          · cases h
          case h_2 child hchild =>
            split at h
            · cases h
            · exact ih (mcsFindChild_lt hchild) h

theorem mcsSplitParentLeaf_lt (hpos : 0 < fs.nodeCount) {path leaf : List UInt8}
    {parent leafLen : Nat} (h : mcsSplitParentLeaf fs path = .ok (parent, leaf, leafLen)) :
    parent < fs.nodeCount := by
  unfold mcsSplitParentLeaf at h
  split at h
  · cases h
  · split at h
    · cases h
    · split at h
      · cases h
      · exact splitLoop_lt hpos h

/-- The file system after a node was added behind the others. -/
def withFile (fs : McsRamfs) (name : Nat → UInt8) : McsRamfs :=
  { fs with
    nodes := Function.update fs.nodes fs.nodeCount
      { used := true, id := fs.nodeCount, parent := 0, type := .file, name := name, size := 0,
        dataOffset := fs.dataUsed, dataCapacity := fileCapacity }
    nodeCount := fs.nodeCount + 1
    dataUsed := fs.dataUsed + fileCapacity }

theorem RamfsInv.addFile (h : RamfsInv fs) (name : Nat → UInt8)
    (hroom : fs.dataUsed + fileCapacity ≤ mcsRamfsDataBytes) :
    RamfsInv (withFile fs name) := by
  have hpos := h.count_pos
  have hused := h.dataUsed_eq
  have hfits : fs.nodeCount < mcsMaxNodes := by
    simp only [fileCapacity, mcsRamfsDataBytes, mcsMaxNodes] at *
    omega
  refine ⟨Nat.succ_pos _, ?_, ?_, ?_, ?_, ?_, hroom⟩
  · intro i hi
    rcases eq_or_ne i fs.nodeCount with rfl | hne
    · simp [withFile]
    · have hold := h.used_iff i hi
      simp only [withFile, Function.update_of_ne hne]
      rw [hold]
      omega
  · intro i hi
    rcases eq_or_ne i fs.nodeCount with rfl | hne
    · simp [withFile]
    · simp only [withFile, Function.update_of_ne hne] at hi ⊢
      exact h.id_eq i (by omega)
  · have hne : 0 ≠ fs.nodeCount := by omega
    simpa [withFile, hne] using h.root
  · intro i hipos hi
    rcases eq_or_ne i fs.nodeCount with rfl | hne
    · simp only [withFile, Function.update_self]
      exact ⟨rfl, rfl, hused, rfl, Nat.zero_le _⟩
    · simp only [withFile, Function.update_of_ne hne] at hi ⊢
      exact h.file i hipos (by omega)
  · simp only [withFile, fileCapacity] at *
    omega

theorem mcsAllocNode_cases (h : RamfsInv fs) (name : List UInt8) (nameLen : Nat) :
    (∃ rc, mcsAllocNode fs 0 .file name nameLen fileCapacity = (fs, .error rc)) ∨
      fs.dataUsed + fileCapacity ≤ mcsRamfsDataBytes ∧
        mcsAllocNode fs 0 .file name nameLen fileCapacity =
          (withFile fs (mcsCopyName name nameLen), .ok fs.nodeCount) := by
  have hused := h.dataUsed_eq
  have hle := h.dataUsed_le
  have hsum : (fs.dataUsed + fileCapacity) % 2 ^ 64 = fs.dataUsed + fileCapacity := by
    simp only [fileCapacity, mcsRamfsDataBytes] at *
    omega
  have hid : fs.nodeCount % 2 ^ 32 = fs.nodeCount := by
    simp only [fileCapacity, mcsRamfsDataBytes] at *
    omega
  unfold mcsAllocNode
  split
  · exact .inl ⟨_, rfl⟩
  · split
    · exact .inl ⟨_, rfl⟩
    · split
      · exact .inl ⟨_, rfl⟩
      case isFalse hroom =>
        refine .inr ⟨?_, ?_⟩
        · rw [hsum, not_and] at hroom
          exact Nat.not_lt.mp (hroom rfl)
        · simp only [hsum, hid, if_true, withFile]

theorem mcsRamfsCreateFile_cases (h : RamfsInv fs) (path : Option (List UInt8)) :
    (∃ rc, mcsRamfsCreateFile fs path = (fs, .error rc)) ∨
      (∃ n, 0 < n ∧ n < fs.nodeCount ∧ mcsRamfsCreateFile fs path = (fs, .ok n)) ∨
      ∃ name, fs.dataUsed + fileCapacity ≤ mcsRamfsDataBytes ∧
        mcsRamfsCreateFile fs path = (withFile fs name, .ok fs.nodeCount) := by
  unfold mcsRamfsCreateFile
  split
  · exact .inl ⟨_, rfl⟩
  case h_2 path =>
    split
    case h_1 existing hlookup =>
      split
      · exact .inl ⟨_, rfl⟩
      case isFalse hfile =>
        refine .inr (.inl ⟨existing, ?_, mcsRamfsLookup_lt h.count_pos hlookup, rfl⟩)
        refine h.pos_of_file fun hdir => ?_
        rw [not_not, hdir] at hfile
        cases hfile
    · split
      · exact .inl ⟨_, rfl⟩
      case h_2 parent leaf leafLen hsplit =>
        split
        · exact .inl ⟨_, rfl⟩
        case isFalse hdir =>
          have hroot : parent = 0 :=
            h.eq_zero_of_dir (mcsSplitParentLeaf_lt h.count_pos hsplit) (not_not.mp hdir)
          rw [hroot, h.id_eq 0 h.count_pos]
          rcases mcsAllocNode_cases h leaf leafLen with hfail | ⟨hroom, hok⟩
          · exact .inl hfail
          · exact .inr (.inr ⟨_, hroom, hok⟩)

theorem RamfsInv.createFile (h : RamfsInv fs) (path : Option (List UInt8)) :
    RamfsInv (mcsRamfsCreateFile fs path).1 ∧
      fs.nodeCount ≤ (mcsRamfsCreateFile fs path).1.nodeCount ∧
      ∀ n, (mcsRamfsCreateFile fs path).2 = .ok n →
        0 < n ∧ n < (mcsRamfsCreateFile fs path).1.nodeCount := by
  rcases mcsRamfsCreateFile_cases h path with
    ⟨rc, hcall⟩ | ⟨n, hpos, hlt, hcall⟩ | ⟨name, hroom, hcall⟩
  · rw [hcall]
    refine ⟨h, Nat.le_refl _, fun n hn => ?_⟩
    cases hn
  · rw [hcall]
    refine ⟨h, Nat.le_refl _, fun m hm => ?_⟩
    cases hm
    exact ⟨hpos, hlt⟩
  · rw [hcall]
    refine ⟨h.addFile name hroom, Nat.le_succ _, fun m hm => ?_⟩
    cases hm
    exact ⟨h.count_pos, Nat.lt_succ_self _⟩

theorem RamfsInv.seedFile (h : RamfsInv fs) (path : Option (List UInt8))
    (data : Option (Nat → UInt8)) (len : Nat) :
    RamfsInv (mcsRamfsSeedFile fs path data len).1 ∧
      fs.nodeCount ≤ (mcsRamfsSeedFile fs path data len).1.nodeCount := by
  obtain ⟨hinv, hcount, hnode⟩ := h.createFile path
  unfold mcsRamfsSeedFile
  split
  · exact ⟨h, Nat.le_refl _⟩
  · generalize mcsRamfsCreateFile fs path = created at hinv hcount hnode
    obtain ⟨fs', result⟩ := created
    cases result with
    | error rc => exact ⟨hinv, hcount⟩
    | ok node =>
        obtain ⟨hpos, hlt⟩ := hnode node rfl
        dsimp only
        split
        · exact ⟨hinv, hcount⟩
        case isFalse hfits =>
          rw [(hinv.file node hpos hlt).dataCapacity] at hfits
          exact ⟨(hinv.setData _).setSize hpos (Nat.not_lt.mp hfits), hcount⟩

theorem copyBytes_outside {data : Nat → UInt8} {base i : Nat} {src : Nat → UInt8} {n : Nat}
    (hi : ¬(base ≤ i ∧ i < base + n)) : copyBytes data base src n i = data i :=
  if_neg hi

theorem mcsRamfsCreateFile_data (h : RamfsInv fs) (path : Option (List UInt8)) :
    (mcsRamfsCreateFile fs path).1.data = fs.data := by
  rcases mcsRamfsCreateFile_cases h path with
    ⟨rc, hcall⟩ | ⟨n, -, -, hcall⟩ | ⟨name, -, hcall⟩
  · rw [hcall]
  · rw [hcall]
  · rw [hcall]
    rfl

/-- Only the extent of the file that is seeded gets other bytes. -/
theorem mcsRamfsSeedFile_data (h : RamfsInv fs) (path : Option (List UInt8))
    (data : Option (Nat → UInt8)) (len : Nat) {i : Nat}
    (hi : ∀ fs' n, mcsRamfsCreateFile fs path = (fs', .ok n) →
      ¬((fs'.nodes n).dataOffset ≤ i ∧
        i < (fs'.nodes n).dataOffset + (fs'.nodes n).dataCapacity)) :
    (mcsRamfsSeedFile fs path data len).1.data i = fs.data i := by
  have hdata := congrFun (mcsRamfsCreateFile_data h path) i
  rw [mcsRamfsSeedFile]
  split
  · rfl
  · split
    case h_1 fs' rc hcall =>
      rw [hcall] at hdata
      exact hdata
    case h_2 fs' node hcall =>
      rw [hcall] at hdata
      split
      · exact hdata
      case isFalse hfits =>
        have hout := hi fs' node hcall
        exact (copyBytes_outside (by omega)).trans hdata

end Ramfs

/-- A descriptor in use points to a node in use. -/
def OpenFile (fs : McsRamfs) (file : McsFile) : Prop :=
  file.used = true → file.fs = true ∧ ∃ n, file.node = some n ∧ n < fs.nodeCount

def TableInv (fs : McsRamfs) (table : McsFdTable) : Prop :=
  ∀ slot, slot < mcsMaxOpenFiles → OpenFile fs (table slot)

section Tables

variable {fs fs' : McsRamfs} {table : McsFdTable}

theorem tableInv_init (fs : McsRamfs) (table : McsFdTable) :
    TableInv fs (mcsFdTableInit table) := by
  intro slot hslot hused
  simp [mcsFdTableInit, hslot, closedFile] at hused

theorem TableInv.mono (h : TableInv fs table) (hcount : fs.nodeCount ≤ fs'.nodeCount) :
    TableInv fs' table := by
  intro slot hslot hused
  obtain ⟨hfs, n, hnode, hlt⟩ := h slot hslot hused
  exact ⟨hfs, n, hnode, Nat.lt_of_lt_of_le hlt hcount⟩

theorem TableInv.update (h : TableInv fs table) {slot : Nat} {file : McsFile}
    (hfile : OpenFile fs file) : TableInv fs (Function.update table slot file) := by
  intro i hi
  rcases eq_or_ne i slot with rfl | hne
  · rw [Function.update_self]
    exact hfile
  · rw [Function.update_of_ne hne]
    exact h i hi

theorem mcsFdGet_some {fd : Int} {slot : Nat} (h : mcsFdGet table fd = some slot) :
    slot < mcsMaxOpenFiles ∧ (table slot).used = true := by
  unfold mcsFdGet at h
  split at h
  · cases h
  case isFalse hrange =>
    split at h
    case isTrue hused =>
      cases h
      exact ⟨by omega, hused⟩
    · cases h

theorem mcsFdAlloc_cases (table : McsFdTable) :
    mcsFdAlloc table = (table, .error .enfile) ∨
      ∃ i, i < mcsMaxOpenFiles ∧ (table i).used = false ∧
        mcsFdAlloc table =
          (Function.update table i { table i with used := true }, .ok i) := by
  unfold mcsFdAlloc
  split
  case h_1 i hfind =>
    refine .inr ⟨i, List.mem_range.mp (List.mem_of_find?_eq_some hfind), ?_, rfl⟩
    simpa using List.find?_some hfind
  · exact .inl rfl

theorem TableInv.node (h : TableInv fs table) {fd : Int} {slot : Nat}
    (hget : mcsFdGet table fd = some slot) :
    (table slot).fs = true ∧ ∃ n, (table slot).node = some n ∧ n < fs.nodeCount := by
  obtain ⟨hslot, hused⟩ := mcsFdGet_some hget
  exact h slot hslot hused

theorem TableInv.setOffset (h : TableInv fs table) {slot : Nat} (hslot : slot < mcsMaxOpenFiles)
    (offset : Nat) :
    TableInv fs (Function.update table slot { table slot with offset := offset }) :=
  h.update (h slot hslot)

theorem openNode_inv (h : RamfsInv fs) (path : Option (List UInt8)) (flags : UInt32) :
    RamfsInv (openNode fs path flags).1 ∧
      fs.nodeCount ≤ (openNode fs path flags).1.nodeCount ∧
      ∀ n, (openNode fs path flags).2 = .ok n → n < (openNode fs path flags).1.nodeCount := by
  unfold openNode
  split
  case h_1 node hlookup =>
    refine ⟨h, Nat.le_refl _, fun n hn => ?_⟩
    cases hn
    exact mcsRamfsLookup_lt h.count_pos hlookup
  · split
    · refine ⟨h, Nat.le_refl _, fun n hn => ?_⟩
      cases hn
    · obtain ⟨hinv, hcount, hnode⟩ := h.createFile path
      exact ⟨hinv, hcount, fun n hn => (hnode n hn).2⟩

theorem openDescriptor_inv (h : RamfsInv fs) (htable : TableInv fs table) {node : Nat}
    (hnode : node < fs.nodeCount) (flags : UInt32) :
    RamfsInv (openDescriptor table fs node flags).2.1 ∧
      (openDescriptor table fs node flags).2.1.nodeCount = fs.nodeCount ∧
      TableInv (openDescriptor table fs node flags).2.1
        (openDescriptor table fs node flags).1 := by
  unfold openDescriptor
  split
  · exact ⟨h, rfl, htable⟩
  case isFalse hwrite =>
    rcases mcsFdAlloc_cases table with hnone | ⟨i, hi, -, hsome⟩
    · rw [hnone]
      exact ⟨h, rfl, htable⟩
    · rw [hsome]
      have hold : ∀ {file : McsFile}, OpenFile fs file → TableInv fs (Function.update
          (Function.update table i { table i with used := true }) i file) := by
        intro file hfile
        rw [Function.update_idem]
        exact htable.update hfile
      have hopened : ∀ offset, OpenFile fs
          { used := true, flags := flags, offset := offset, node := some node, fs := true } :=
        fun _ _ => ⟨rfl, node, rfl, hnode⟩
      dsimp only
      rw [Function.update_self]
      split
      · split
        · exact ⟨h, rfl, hold fun hused => absurd hused Bool.false_ne_true⟩
        case isFalse hcan =>
          have hpos : 0 < node := h.pos_of_file fun hdir =>
            hwrite ⟨hdir, by simpa using hcan⟩
          exact ⟨h.setSize hpos (Nat.zero_le _), rfl, (hold (hopened 0)).mono (Nat.le_refl _)⟩
      · exact ⟨h, rfl, hold (hopened _)⟩

/-- The index lies in the extent of the file that the descriptor is open on. -/
def InOwnExtent (table : McsFdTable) (fs : McsRamfs) (fd : Int) (i : Nat) : Prop :=
  ∃ slot n, mcsFdGet table fd = some slot ∧ (table slot).node = some n ∧
    (fs.nodes n).dataOffset ≤ i ∧ i < (fs.nodes n).dataOffset + (fs.nodes n).dataCapacity

theorem mem_dataIndices {base n i : Nat} : i ∈ dataIndices base n ↔ base ≤ i ∧ i < base + n := by
  simp only [dataIndices, List.mem_map, List.mem_range]
  constructor
  · rintro ⟨k, hk, rfl⟩
    exact ⟨Nat.le_add_right _ _, by omega⟩
  · rintro ⟨hle, hlt⟩
    exact ⟨i - base, by omega, by omega⟩

theorem mcsVfsRead_inv (h : RamfsInv fs) (htable : TableInv fs table) (fd : Int) (buf : Bool)
    (len : Nat) :
    TableInv fs (mcsVfsRead table fs fd buf len).table ∧
      ∀ i ∈ (mcsVfsRead table fs fd buf len).touched, InOwnExtent table fs fd i := by
  have hnone : ∀ i ∈ ([] : List Nat), InOwnExtent table fs fd i := fun i hi => by cases hi
  unfold mcsVfsRead
  split
  · exact ⟨htable, hnone⟩
  · split
    · exact ⟨htable, hnone⟩
    case h_2 slot hget =>
      obtain ⟨hfs, n, hnode, hlt⟩ := htable.node hget
      dsimp only
      split
      · exact ⟨htable, hnone⟩
      · rw [hnode, hfs]
        dsimp only
        split
        · exact ⟨htable, hnone⟩
        case isFalse hfile =>
          split
          · exact ⟨htable, hnone⟩
          case isFalse hoffset =>
            have hnodeInv := h.file n (h.pos_of_file hfile) hlt
            refine ⟨htable.update fun _ => ⟨rfl, n, rfl, hlt⟩,
              fun i hi => ⟨slot, n, hget, hnode, ?_⟩⟩
            obtain ⟨hle, hilt⟩ := mem_dataIndices.mp hi
            have hsize := hnodeInv.size
            rw [hnodeInv.dataCapacity]
            omega

theorem writeAt_data (table : McsFdTable) (fs : McsRamfs) (slot : Nat) (file : McsFile) (n : Nat)
    (buf : Nat → UInt8) (len : Nat) {i : Nat}
    (hi : i ∉ (writeAt table fs slot file n buf len).touched) :
    (writeAt table fs slot file n buf len).fs.data i = fs.data i := by
  rw [writeAt] at hi ⊢
  dsimp only at hi ⊢
  split
  · rfl
  · split
    · rfl
    case isFalse hoffset hroom =>
      rw [if_neg hoffset, if_neg hroom] at hi
      have hkept := mt mem_dataIndices.mpr hi
      split
      · exact copyBytes_outside hkept
      · exact copyBytes_outside hkept

theorem mcsVfsWrite_data (table : McsFdTable) (fs : McsRamfs) (fd : Int)
    (buf : Option (Nat → UInt8)) (len : Nat) {i : Nat}
    (hi : i ∉ (mcsVfsWrite table fs fd buf len).touched) :
    (mcsVfsWrite table fs fd buf len).fs.data i = fs.data i := by
  revert hi
  unfold mcsVfsWrite
  split
  · exact fun _ => rfl
  · split
    · exact fun _ => rfl
    · dsimp only
      split
      · exact fun _ => rfl
      · split
        · split
          · exact fun _ => rfl
          · exact writeAt_data _ _ _ _ _ _ _
        · exact fun _ => rfl

theorem writeAt_inv (h : RamfsInv fs) (htable : TableInv fs table) (slot : Nat) {n : Nat}
    {file : McsFile} (hfile : OpenFile fs file) (hpos : 0 < n) (hn : n < fs.nodeCount)
    (buf : Nat → UInt8) (len : Nat) :
    RamfsInv (writeAt table fs slot file n buf len).fs ∧
      (writeAt table fs slot file n buf len).fs.nodeCount = fs.nodeCount ∧
      TableInv (writeAt table fs slot file n buf len).fs
        (writeAt table fs slot file n buf len).table ∧
      ∀ i ∈ (writeAt table fs slot file n buf len).touched,
        (fs.nodes n).dataOffset ≤ i ∧
          i < (fs.nodes n).dataOffset + (fs.nodes n).dataCapacity := by
  have hcap := (h.file n hpos hn).dataCapacity
  unfold writeAt
  dsimp only
  split
  · exact ⟨h, rfl, htable.update hfile, fun i hi => by cases hi⟩
  case isFalse hoffset =>
    split
    · exact ⟨h, rfl, htable.update hfile, fun i hi => by cases hi⟩
    case isFalse hroom =>
      have hopen : ∀ offset, OpenFile fs { file with offset := offset } := fun _ => hfile
      have htouched : ∀ i ∈ dataIndices ((fs.nodes n).dataOffset + file.offset)
          (min len ((fs.nodes n).dataCapacity - file.offset)),
          (fs.nodes n).dataOffset ≤ i ∧
            i < (fs.nodes n).dataOffset + (fs.nodes n).dataCapacity := by
        intro i hi
        obtain ⟨hle, hlt⟩ := mem_dataIndices.mp hi
        omega
      rw [Function.update_idem]
      split
      · refine ⟨(h.setData _).setSize hpos ?_, rfl, ?_, htouched⟩
        · rw [hcap] at hoffset ⊢
          omega
        · exact (htable.update (hopen _)).mono (Nat.le_refl _)
      · exact ⟨h.setData _, rfl, (htable.update (hopen _)).mono (Nat.le_refl _), htouched⟩

theorem mcsVfsWrite_inv (h : RamfsInv fs) (htable : TableInv fs table) (fd : Int)
    (buf : Option (Nat → UInt8)) (len : Nat) :
    RamfsInv (mcsVfsWrite table fs fd buf len).fs ∧
      (mcsVfsWrite table fs fd buf len).fs.nodeCount = fs.nodeCount ∧
      TableInv (mcsVfsWrite table fs fd buf len).fs (mcsVfsWrite table fs fd buf len).table ∧
      ∀ i ∈ (mcsVfsWrite table fs fd buf len).touched, InOwnExtent table fs fd i := by
  have hnone : ∀ i ∈ ([] : List Nat), InOwnExtent table fs fd i := fun i hi => by cases hi
  unfold mcsVfsWrite
  split
  · exact ⟨h, rfl, htable, hnone⟩
  · split
    · exact ⟨h, rfl, htable, hnone⟩
    case h_2 slot hget =>
      obtain ⟨hfs, n, hnode, hlt⟩ := htable.node hget
      obtain ⟨hslot, -⟩ := mcsFdGet_some hget
      dsimp only
      split
      · exact ⟨h, rfl, htable, hnone⟩
      · rw [hnode, hfs]
        dsimp only
        split
        · exact ⟨h, rfl, htable, hnone⟩
        case isFalse hfile =>
          have hpos := h.pos_of_file hfile
          have hopen : OpenFile fs (if (table slot).flags &&& mcsOAppend ≠ 0 then
              { table slot with offset := (fs.nodes n).size } else table slot) := by
            split <;> exact htable slot hslot
          obtain ⟨hinv, hcount, htable', htouched⟩ :=
            writeAt_inv h htable slot hopen hpos hlt (buf.getD fun _ => 0) len
          simp only [hnode, hfs] at hinv hcount htable' htouched
          exact ⟨hinv, hcount, htable', fun i hi => ⟨slot, n, hget, hnode, htouched i hi⟩⟩

theorem mcsVfsLseek_inv (htable : TableInv fs table) (fd offset whence : Int) :
    TableInv fs (mcsVfsLseek table fs fd offset whence).1 := by
  unfold mcsVfsLseek
  split
  · exact htable
  case h_2 slot hget =>
    dsimp only
    split
    · exact htable
    · split
      · exact htable
      · split
        · exact htable
        · split
          · exact htable
          · exact htable.setOffset (mcsFdGet_some hget).1 _

theorem mcsVfsClose_inv (htable : TableInv fs table) (fd : Int) :
    TableInv fs (mcsVfsClose table fd).1 := by
  unfold mcsVfsClose
  split
  · exact htable
  · exact htable.update fun hused => absurd hused Bool.false_ne_true

theorem mcsVfsDup_inv (htable : TableInv fs table) (fd : Int) :
    TableInv fs (mcsVfsDup table fd).1 := by
  unfold mcsVfsDup
  split
  · exact htable
  case h_2 slot hget =>
    obtain ⟨hslot, hused⟩ := mcsFdGet_some hget
    rcases mcsFdAlloc_cases table with hnone | ⟨i, hi, hfree, hsome⟩
    · rw [hnone]
      exact htable
    · rw [hsome]
      have hne : slot ≠ i := by
        rintro rfl
        rw [hused] at hfree
        cases hfree
      dsimp only
      rw [Function.update_self, Function.update_of_ne hne, Function.update_idem]
      exact htable.update fun _ => htable slot hslot hused

end Tables

/-- One file system, and any number of descriptor tables over it. -/
structure VfsWorld where
  fs : McsRamfs
  tables : Nat → McsFdTable

/-- The calls; those on descriptors name the table they are made on. -/
inductive VfsCall where
  | createFile (path : Option (List UInt8))
  | seedFile (path : Option (List UInt8)) (data : Option (Nat → UInt8)) (len : Nat)
  | vfsOpen (table : Nat) (path : Option (List UInt8)) (flags : UInt32)
  | vfsRead (table : Nat) (fd : Int) (buf : Bool) (len : Nat)
  | vfsWrite (table : Nat) (fd : Int) (buf : Option (Nat → UInt8)) (len : Nat)
  | vfsLseek (table : Nat) (fd offset whence : Int)
  | vfsClose (table : Nat) (fd : Int)
  | vfsDup (table : Nat) (fd : Int)

/-- The value that a call returns, and the bytes that it puts in the buffer. -/
structure VfsResult where
  ret : Int
  bytes : List UInt8
deriving DecidableEq, Repr

/-- The result code of the functions that return a node or nothing. -/
def statusCode {α : Type} : Except McsStatus α → Int
  | .ok _ => 0
  | .error rc => rc.code

def VfsWorld.setTable (w : VfsWorld) (i : Nat) (table : McsFdTable) : VfsWorld :=
  { w with tables := Function.update w.tables i table }

def VfsWorld.step (w : VfsWorld) : VfsCall → VfsWorld × VfsResult
  | .createFile path =>
      let (fs, result) := mcsRamfsCreateFile w.fs path
      ({ w with fs := fs }, ⟨statusCode result, []⟩)
  | .seedFile path data len =>
      let (fs, result) := mcsRamfsSeedFile w.fs path data len
      ({ w with fs := fs }, ⟨statusCode result, []⟩)
  | .vfsOpen i path flags =>
      let (table, fs, ret) := mcsVfsOpen (w.tables i) w.fs path flags
      ({ w.setTable i table with fs := fs }, ⟨ret, []⟩)
  | .vfsRead i fd buf len =>
      let outcome := mcsVfsRead (w.tables i) w.fs fd buf len
      (w.setTable i outcome.table, ⟨outcome.ret, outcome.bytes⟩)
  | .vfsWrite i fd buf len =>
      let outcome := mcsVfsWrite (w.tables i) w.fs fd buf len
      ({ w.setTable i outcome.table with fs := outcome.fs }, ⟨outcome.ret, []⟩)
  | .vfsLseek i fd offset whence =>
      let (table, ret) := mcsVfsLseek (w.tables i) w.fs fd offset whence
      (w.setTable i table, ⟨ret, []⟩)
  | .vfsClose i fd =>
      let (table, ret) := mcsVfsClose (w.tables i) fd
      (w.setTable i table, ⟨ret, []⟩)
  | .vfsDup i fd =>
      let (table, ret) := mcsVfsDup (w.tables i) fd
      (w.setTable i table, ⟨ret, []⟩)

/-- The addition of `mcs_vfs_lseek` stays in the range of `long`. -/
def NoSeekOverflow (w : VfsWorld) (i : Nat) (fd offset whence : Int) : Prop :=
  ∀ slot n base, mcsFdGet (w.tables i) fd = some slot → (w.tables i slot).node = some n →
    seekBase (w.tables i slot) (w.fs.nodes n).size whence = some base →
      -2 ^ 63 ≤ base + offset ∧ base + offset < 2 ^ 63

/-- Lengths are 64-bit, and seeks do not overflow. -/
def VfsWorld.Allowed (w : VfsWorld) : VfsCall → Prop
  | .seedFile _ _ len => len < 2 ^ 64
  | .vfsRead _ _ _ len => len < 2 ^ 64
  | .vfsWrite _ _ _ len => len < 2 ^ 64
  | .vfsLseek i fd offset whence => NoSeekOverflow w i fd offset whence
  | _ => True

def vfsSystem : System VfsWorld VfsCall VfsResult where
  allowed := VfsWorld.Allowed
  step w call := some (w.step call)

/-- The state after `mcs_ramfs_init` and `mcs_fd_table_init` on every table. -/
def startWorld (fs : McsRamfs) (tables : Nat → McsFdTable) : VfsWorld :=
  ⟨mcsRamfsInit fs, fun i => mcsFdTableInit (tables i)⟩

structure VfsInv (w : VfsWorld) : Prop where
  ramfs : RamfsInv w.fs
  tables : ∀ i, TableInv w.fs (w.tables i)

theorem vfsInv_startWorld (fs : McsRamfs) (tables : Nat → McsFdTable) :
    VfsInv (startWorld fs tables) :=
  ⟨ramfsInv_init fs, fun i => tableInv_init _ (tables i)⟩

section Runs

variable {w : VfsWorld}

theorem VfsInv.change (h : VfsInv w) {fs' : McsRamfs} (hfs : RamfsInv fs')
    (hcount : w.fs.nodeCount ≤ fs'.nodeCount) {i : Nat} {table : McsFdTable}
    (htable : TableInv fs' table) : VfsInv { w.setTable i table with fs := fs' } := by
  refine ⟨hfs, fun j => ?_⟩
  rcases eq_or_ne j i with rfl | hne
  · simpa [VfsWorld.setTable] using htable
  · simpa [VfsWorld.setTable, hne] using (h.tables j).mono hcount

theorem VfsInv.changeTable (h : VfsInv w) {i : Nat} {table : McsFdTable}
    (htable : TableInv w.fs table) : VfsInv (w.setTable i table) :=
  h.change h.ramfs (Nat.le_refl _) htable

theorem VfsInv.changeFs (h : VfsInv w) {fs' : McsRamfs} (hfs : RamfsInv fs')
    (hcount : w.fs.nodeCount ≤ fs'.nodeCount) : VfsInv { w with fs := fs' } :=
  ⟨hfs, fun i => (h.tables i).mono hcount⟩

theorem VfsInv.vfsOpen (h : VfsInv w) (i : Nat) (path : Option (List UInt8)) (flags : UInt32) :
    VfsInv (w.step (.vfsOpen i path flags)).1 := by
  cases path with
  | none => exact h.change h.ramfs (Nat.le_refl _) (h.tables i)
  | some path =>
      obtain ⟨hinv, hcount, hnode⟩ := openNode_inv h.ramfs (some path) (defaultFlags flags)
      simp only [VfsWorld.step, mcsVfsOpen]
      generalize openNode w.fs (some path) (defaultFlags flags) = found at hinv hcount hnode
      obtain ⟨fs', result⟩ := found
      cases result with
      | error rc => exact h.change hinv hcount ((h.tables i).mono hcount)
      | ok node =>
          obtain ⟨hinv', hcount', htable⟩ := openDescriptor_inv hinv
            ((h.tables i).mono hcount) (hnode node rfl) (defaultFlags flags)
          exact h.change hinv' (Nat.le_trans hcount (Nat.le_of_eq hcount'.symm)) htable

theorem vfsInv_step (h : VfsInv w) (call : VfsCall) : VfsInv (w.step call).1 := by
  cases call with
  | createFile path =>
      obtain ⟨hinv, hcount, -⟩ := h.ramfs.createFile path
      exact h.changeFs hinv hcount
  | seedFile path data len =>
      obtain ⟨hinv, hcount⟩ := h.ramfs.seedFile path data len
      exact h.changeFs hinv hcount
  | vfsOpen i path flags => exact h.vfsOpen i path flags
  | vfsRead i fd buf len =>
      exact h.changeTable (mcsVfsRead_inv h.ramfs (h.tables i) fd buf len).1
  | vfsWrite i fd buf len =>
      obtain ⟨hinv, hcount, htable, -⟩ := mcsVfsWrite_inv h.ramfs (h.tables i) fd buf len
      exact h.change hinv (Nat.le_of_eq hcount.symm) htable
  | vfsLseek i fd offset whence =>
      exact h.changeTable (mcsVfsLseek_inv (h.tables i) fd offset whence)
  | vfsClose i fd => exact h.changeTable (mcsVfsClose_inv (h.tables i) fd)
  | vfsDup i fd => exact h.changeTable (mcsVfsDup_inv (h.tables i) fd)

theorem vfsInv_run {fs : McsRamfs} {tables : Nat → McsFdTable}
    {trace : List (VfsCall × VfsResult)}
    (hrun : Run vfsSystem (startWorld fs tables) trace w) : VfsInv w :=
  hrun.invariant_total (fun _ _ => rfl) VfsInv (fun _ call hw _ => vfsInv_step hw call)
    (vfsInv_startWorld fs tables)

/-- The nodes in use are the first ones, numbered in order; all but the root are files
in the root directory, with extents of their own in the used part of the data area. -/
structure RamfsLayout (fs : McsRamfs) : Prop where
  used_iff : ∀ i, i < mcsMaxNodes → ((fs.nodes i).used = true ↔ i < fs.nodeCount)
  id_eq : ∀ i, i < fs.nodeCount → (fs.nodes i).id = i
  root : (fs.nodes 0).type = .dir
  file : ∀ i, 0 < i → i < fs.nodeCount → (fs.nodes i).type = .file ∧ (fs.nodes i).parent = 0
  size_le : ∀ i, 0 < i → i < fs.nodeCount → (fs.nodes i).size ≤ (fs.nodes i).dataCapacity
  inside : ∀ i, 0 < i → i < fs.nodeCount →
    (fs.nodes i).dataOffset + (fs.nodes i).dataCapacity ≤ fs.dataUsed
  disjoint : ∀ i j, 0 < i → i < fs.nodeCount → 0 < j → j < fs.nodeCount → i ≠ j →
    (fs.nodes i).dataOffset + (fs.nodes i).dataCapacity ≤ (fs.nodes j).dataOffset ∨
      (fs.nodes j).dataOffset + (fs.nodes j).dataCapacity ≤ (fs.nodes i).dataOffset
  dataUsed_eq : fs.dataUsed = 256 * (fs.nodeCount - 1)
  dataUsed_le : fs.dataUsed ≤ 8192

theorem RamfsInv.layout {fs : McsRamfs} (h : RamfsInv fs) : RamfsLayout fs where
  used_iff := h.used_iff
  id_eq := h.id_eq
  root := h.root
  file i hpos hi := ⟨(h.file i hpos hi).type, (h.file i hpos hi).parent⟩
  size_le i hpos hi := by
    rw [(h.file i hpos hi).dataCapacity]
    exact (h.file i hpos hi).size
  inside i hpos hi := by
    rw [(h.file i hpos hi).dataCapacity, (h.file i hpos hi).dataOffset, h.dataUsed_eq,
      fileCapacity]
    omega
  disjoint i j hi hi' hj hj' hne := by
    rw [(h.file i hi hi').dataCapacity, (h.file i hi hi').dataOffset,
      (h.file j hj hj').dataCapacity, (h.file j hj hj').dataOffset, fileCapacity]
    omega
  dataUsed_eq := h.dataUsed_eq
  dataUsed_le := h.dataUsed_le

/-- After every run the file system is laid out as creation did it, every descriptor in
use has a file system and a node of it, and reads and writes stay inside the extent
of their own file. -/
theorem run_vfsLayout {fs : McsRamfs} {tables : Nat → McsFdTable}
    {trace : List (VfsCall × VfsResult)}
    (hrun : Run vfsSystem (startWorld fs tables) trace w) :
    RamfsLayout w.fs ∧
      (∀ i slot, slot < mcsMaxOpenFiles → (w.tables i slot).used = true →
        (w.tables i slot).fs = true ∧
          ∃ n, (w.tables i slot).node = some n ∧ n < w.fs.nodeCount ∧
            (w.fs.nodes n).used = true) ∧
      (∀ i fd buf len, ∀ k ∈ (mcsVfsRead (w.tables i) w.fs fd buf len).touched,
        InOwnExtent (w.tables i) w.fs fd k) ∧
      (∀ i fd buf len, ∀ k ∈ (mcsVfsWrite (w.tables i) w.fs fd buf len).touched,
        InOwnExtent (w.tables i) w.fs fd k) ∧
      ∀ i fd buf len k, ¬InOwnExtent (w.tables i) w.fs fd k →
        (mcsVfsWrite (w.tables i) w.fs fd buf len).fs.data k = w.fs.data k := by
  have h := vfsInv_run hrun
  have hwrite : ∀ i fd buf len, ∀ k ∈ (mcsVfsWrite (w.tables i) w.fs fd buf len).touched,
      InOwnExtent (w.tables i) w.fs fd k := by
    intro i fd buf len
    obtain ⟨-, -, -, htouched⟩ := mcsVfsWrite_inv h.ramfs (h.tables i) fd buf len
    exact htouched
  refine ⟨h.ramfs.layout, ?_, ?_, hwrite, ?_⟩
  · intro i slot hslot hused
    obtain ⟨hfs, n, hnode, hn⟩ := h.tables i slot hslot hused
    have hnodes : n < mcsMaxNodes := by
      have hle := h.ramfs.dataUsed_le
      rw [h.ramfs.dataUsed_eq, fileCapacity, mcsRamfsDataBytes] at hle
      rw [mcsMaxNodes]
      omega
    exact ⟨hfs, n, hnode, hn, (h.ramfs.used_iff n hnodes).mpr hn⟩
  · intro i fd buf len
    exact (mcsVfsRead_inv h.ramfs (h.tables i) fd buf len).2
  · intro i fd buf len k hk
    exact mcsVfsWrite_data _ _ fd buf len (mt (hwrite i fd buf len k) hk)

/-- Memory before any initialisation, here with zero in all fields. -/
def blankRamfs : McsRamfs :=
  ⟨fun _ => ⟨false, 0, 0, .file, fun _ => 0, 0, 0, 0⟩, 0, fun _ => 0, 0⟩

def freshWorld : VfsWorld := startWorld blankRamfs fun _ _ => closedFile

/-- A file is created, written, and read from its second byte on. -/
def rereadCalls : List VfsCall :=
  [.vfsOpen 0 (some [slash, 0x61]) (mcsOCreat ||| mcsORdwr), .vfsWrite 0 0 (some fun _ => 7) 3,
    .vfsLseek 0 0 1 0, .vfsRead 0 0 true 8]

def rereadWorld : VfsWorld := rereadCalls.foldl (fun w call => (w.step call).1) freshWorld

theorem run_rereadWorld :
    Run vfsSystem freshWorld (rereadCalls.zip [⟨0, []⟩, ⟨3, []⟩, ⟨1, []⟩, ⟨2, [7, 7]⟩])
      rereadWorld := by
  refine .cons trivial rfl (.cons (by decide : 3 < 2 ^ 64) rfl ?_)
  refine .cons ?_ rfl (.cons (by decide : 8 < 2 ^ 64) rfl (.nil _))
  rintro slot n base - - hbase
  cases hbase
  decide

theorem run_vfsLayout_rereadWorld :
    rereadWorld.fs.nodeCount = 2 ∧ RamfsLayout rereadWorld.fs :=
  ⟨by decide, (run_vfsLayout run_rereadWorld).1⟩

end Runs

end Mcsos.VfsInvariant

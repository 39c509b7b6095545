import Mcsos.VfsEffects

/-!
Processes that share one file system.  The calls `mcs_sys_open` to `mcs_sys_lseek` of some
processes can be taken out of a run, and no other process notices, if these processes make no
files and write only to files that the others do not open.
-/

namespace Mcsos.VfsIsolation

open Mcsos.CallSystem
open Mcsos.RamfsModel
open Mcsos.FdModel
open Mcsos.VfsInvariant
open Mcsos.ByteFiles
open Mcsos.VfsNames
open Mcsos.VfsRefinement
open Mcsos.VfsDescriptors
open Mcsos.VfsEffects

/-- The calls of a process, with null pointers as `false` or `none`. -/
inductive SysCall where
  | sysOpen (fs : Bool) (userPath : Option (List UInt8)) (flags : UInt32)
  | sysRead (fd : Int) (userBuf : Bool) (len : Nat)
  | sysWrite (fd : Int) (userBuf : Option (Nat → UInt8)) (len : Nat)
  | sysClose (fd : Int)
  | sysLseek (fd offset whence : Int)

def sysRefused (w : VfsWorld) : VfsWorld × VfsResult := (w, ⟨McsStatus.einval.code, []⟩)

/-- The process is the owner of a descriptor table; a null pointer to it is `none`. -/
def mcsSysOpen (w : VfsWorld) (proc : Option Nat) (fs : Bool) (userPath : Option (List UInt8))
    (flags : UInt32) : VfsWorld × VfsResult :=
  match proc with
  | none => sysRefused w
  | some i =>
      if fs = false ∨ userPath = none then sysRefused w else w.step (.vfsOpen i userPath flags)

def mcsSysRead (w : VfsWorld) (proc : Option Nat) (fd : Int) (userBuf : Bool) (len : Nat) :
    VfsWorld × VfsResult :=
  match proc with
  | none => sysRefused w
  | some i => if userBuf = false ∧ len ≠ 0 then sysRefused w else w.step (.vfsRead i fd userBuf len)

def mcsSysWrite (w : VfsWorld) (proc : Option Nat) (fd : Int) (userBuf : Option (Nat → UInt8))
    (len : Nat) : VfsWorld × VfsResult :=
  match proc with
  | none => sysRefused w
  | some i =>
      if userBuf.isNone ∧ len ≠ 0 then sysRefused w else w.step (.vfsWrite i fd userBuf len)

def mcsSysClose (w : VfsWorld) (proc : Option Nat) (fd : Int) : VfsWorld × VfsResult :=
  match proc with
  | none => sysRefused w
  | some i => w.step (.vfsClose i fd)

def mcsSysLseek (w : VfsWorld) (proc : Option Nat) (fd offset whence : Int) :
    VfsWorld × VfsResult :=
  match proc with
  | none => sysRefused w
  | some i => w.step (.vfsLseek i fd offset whence)

def sysStep (w : VfsWorld) (proc : Option Nat) : SysCall → VfsWorld × VfsResult
  | .sysOpen fs userPath flags => mcsSysOpen w proc fs userPath flags
  | .sysRead fd userBuf len => mcsSysRead w proc fd userBuf len
  | .sysWrite fd userBuf len => mcsSysWrite w proc fd userBuf len
  | .sysClose fd => mcsSysClose w proc fd
  | .sysLseek fd offset whence => mcsSysLseek w proc fd offset whence

/-- The call of the file system that a system call is, unless its pointers are refused. -/
def sysCallOf (i : Nat) : SysCall → VfsCall
  | .sysOpen _ userPath flags => .vfsOpen i userPath flags
  | .sysRead fd userBuf len => .vfsRead i fd userBuf len
  | .sysWrite fd userBuf len => .vfsWrite i fd userBuf len
  | .sysClose fd => .vfsClose i fd
  | .sysLseek fd offset whence => .vfsLseek i fd offset whence

theorem sysStep_cases (proc : Option Nat) (call : SysCall) :
    (∀ w, sysStep w proc call = sysRefused w) ∨
      ∃ i, proc = some i ∧ ∀ w, sysStep w proc call = w.step (sysCallOf i call) := by
  rcases proc with _ | i
  · left
    intro w
    cases call <;> rfl
  · cases call with
    | sysOpen fs userPath flags =>
        by_cases hnull : fs = false ∨ userPath = none
        · exact .inl fun w => if_pos hnull
        · exact .inr ⟨i, rfl, fun w => if_neg hnull⟩
    | sysRead fd userBuf len =>
        by_cases hnull : userBuf = false ∧ len ≠ 0
        · exact .inl fun w => if_pos hnull
        · exact .inr ⟨i, rfl, fun w => if_neg hnull⟩
    | sysWrite fd userBuf len =>
        by_cases hnull : userBuf.isNone ∧ len ≠ 0
        · exact .inl fun w => if_pos hnull
        · exact .inr ⟨i, rfl, fun w => if_neg hnull⟩
    | sysClose fd => exact .inr ⟨i, rfl, fun w => rfl⟩
    | sysLseek fd offset whence => exact .inr ⟨i, rfl, fun w => rfl⟩

/-- The node is a file with one of these names. -/
def Named (names : Set (List UInt8)) (fs : McsRamfs) (n : Nat) : Prop :=
  0 < n ∧ n < fs.nodeCount ∧ ∃ name ∈ names, PaddedName (fs.nodes n).name name

/-- The bytes of the data area that belong to a node. -/
def area (fs : McsRamfs) (n : Nat) : Set Nat :=
  Set.Ico (fs.nodes n).dataOffset ((fs.nodes n).dataOffset + fileCapacity)

/-- Only files with these names differ, in their sizes and their bytes. -/
structure Similar (names : Set (List UInt8)) (fs fs' : McsRamfs) : Prop where
  nodeCount : fs'.nodeCount = fs.nodeCount
  dataUsed : fs'.dataUsed = fs.dataUsed
  node : ∀ m, fs'.nodes m = { fs.nodes m with size := (fs'.nodes m).size }
  size : ∀ m, ¬Named names fs m → (fs'.nodes m).size = (fs.nodes m).size
  data : ∀ j, (∀ m, Named names fs m → j ∉ area fs m) → fs'.data j = fs.data j

section Congruence

variable {names : Set (List UInt8)} {fs fs' : McsRamfs} {n : Nat}

theorem Similar.refl (names : Set (List UInt8)) (fs : McsRamfs) : Similar names fs fs :=
  ⟨rfl, rfl, fun _ => rfl, fun _ _ => rfl, fun _ _ => rfl⟩

theorem Similar.node_eq (h : Similar names fs fs') (hn : ¬Named names fs n) :
    fs'.nodes n = fs.nodes n := by
  rw [h.node n, h.size n hn]

theorem Similar.findChild (h : Similar names fs fs') (parent : Nat) (name : List UInt8)
    (nameLen : Nat) :
    mcsFindChild fs' parent name nameLen = mcsFindChild fs parent name nameLen := by
  have htest : (fun i => (fs'.nodes i).used && (fs'.nodes i).parent == parent &&
      mcsStreqN name (fs'.nodes i).name nameLen) = fun i =>
        (fs.nodes i).used && (fs.nodes i).parent == parent &&
          mcsStreqN name (fs.nodes i).name nameLen := by
    funext i
    rw [h.node i]
  rw [mcsFindChild, mcsFindChild, h.nodeCount, htest]

theorem Similar.lookupLoop (h : Similar names fs fs') (cur : Nat) (seg : List UInt8)
    (fuel : Nat) : lookupLoop fs' cur seg fuel = lookupLoop fs cur seg fuel := by
  induction fuel generalizing cur seg with
  | zero => rfl
  | succ fuel ih =>
      have hid : (fs'.nodes cur).id = (fs.nodes cur).id := by rw [h.node cur]
      have htype : ∀ m, (fs'.nodes m).type = (fs.nodes m).type := fun m => by rw [h.node m]
      simp only [RamfsModel.lookupLoop, hid, h.findChild, htype, ih]

theorem Similar.lookup (h : Similar names fs fs') (path : Option (List UInt8)) :
    mcsRamfsLookup fs' path = mcsRamfsLookup fs path := by
  simp only [mcsRamfsLookup, h.lookupLoop]

theorem Similar.splitLoop (h : Similar names fs fs') (cur : Nat) (seg : List UInt8)
    (fuel : Nat) : splitLoop fs' cur seg fuel = splitLoop fs cur seg fuel := by
  induction fuel generalizing cur seg with
  | zero => rfl
  | succ fuel ih =>
      have hid : (fs'.nodes cur).id = (fs.nodes cur).id := by rw [h.node cur]
      have htype : ∀ m, (fs'.nodes m).type = (fs.nodes m).type := fun m => by rw [h.node m]
      simp only [RamfsModel.splitLoop, hid, h.findChild, htype, ih]

theorem Similar.splitParentLeaf (h : Similar names fs fs') (path : List UInt8) :
    mcsSplitParentLeaf fs' path = mcsSplitParentLeaf fs path := by
  simp only [mcsSplitParentLeaf, h.splitLoop]

/-- A file system in which sizes and bytes have changed and nothing else. -/
structure Rewritten (fs fs₁ : McsRamfs) : Prop where
  nodeCount : fs₁.nodeCount = fs.nodeCount
  dataUsed : fs₁.dataUsed = fs.dataUsed
  node : ∀ m, fs₁.nodes m = { fs.nodes m with size := (fs₁.nodes m).size }

theorem Rewritten.refl (fs : McsRamfs) : Rewritten fs fs := ⟨rfl, rfl, fun _ => rfl⟩

theorem rewritten_setSize (fs : McsRamfs) (n size : Nat) : Rewritten fs (fs.setSize n size) := by
  refine ⟨rfl, rfl, fun m => ?_⟩
  rcases eq_or_ne m n with rfl | hne
  · simp [McsRamfs.setSize]
  · simp [McsRamfs.setSize, hne]

theorem rewritten_writtenFs (fs : McsRamfs) (n offset : Nat) (buf : Nat → UInt8) (len : Nat) :
    Rewritten fs (writtenFs fs n offset buf len) := by
  rw [writtenFs]
  split
  · exact ⟨rfl, rfl, (rewritten_setSize _ n (offset + len)).node⟩
  · exact ⟨rfl, rfl, fun _ => rfl⟩

theorem Rewritten.named_iff {fs₁ : McsRamfs} (h : Rewritten fs fs₁) :
    Named names fs₁ n ↔ Named names fs n := by
  rw [Named, Named, h.nodeCount, h.node n]

theorem Rewritten.area_eq {fs₁ : McsRamfs} (h : Rewritten fs fs₁) : area fs₁ n = area fs n := by
  rw [area, area, h.node n]

theorem Similar.rewrite {fs₁ fs₁' : McsRamfs} (h : Similar names fs fs')
    (hleft : Rewritten fs fs₁) (hright : Rewritten fs' fs₁')
    (hsize : ∀ m, ¬Named names fs m → (fs₁'.nodes m).size = (fs₁.nodes m).size)
    (hdata : ∀ j, (∀ m, Named names fs m → j ∉ area fs m) → fs₁'.data j = fs₁.data j) :
    Similar names fs₁ fs₁' := by
  refine ⟨?_, ?_, fun m => ?_, fun m hm => ?_, fun j hj => ?_⟩
  · rw [hright.nodeCount, h.nodeCount, hleft.nodeCount]
  · rw [hright.dataUsed, h.dataUsed, hleft.dataUsed]
  · rw [hleft.node m, hright.node m, h.node m]
  · rw [hleft.named_iff] at hm
    exact hsize m hm
  · refine hdata j fun m hm => ?_
    rw [← hleft.area_eq]
    exact hj m (hleft.named_iff.mpr hm)

theorem Similar.addNode (h : Similar names fs fs') (node : McsVnode) (used : Nat) :
    Similar names
      { fs with
        nodes := Function.update fs.nodes fs.nodeCount node
        nodeCount := fs.nodeCount + 1
        dataUsed := used }
      { fs' with
        nodes := Function.update fs'.nodes fs'.nodeCount node
        nodeCount := fs'.nodeCount + 1
        dataUsed := used } := by
  have hold : ∀ m, Named names fs m → Named names
      { fs with
        nodes := Function.update fs.nodes fs.nodeCount node
        nodeCount := fs.nodeCount + 1
        dataUsed := used } m := by
    rintro m ⟨hpos, hlt, hname⟩
    refine ⟨hpos, Nat.lt_succ_of_lt hlt, ?_⟩
    dsimp only
    rw [Function.update_of_ne (Nat.ne_of_lt hlt)]
    exact hname
  refine ⟨congrArg (· + 1) h.nodeCount, rfl, fun m => ?_, fun m hm => ?_, fun j hj => ?_⟩
  · dsimp only
    rw [h.nodeCount]
    rcases eq_or_ne m fs.nodeCount with rfl | hne
    · rw [Function.update_self, Function.update_self]
    · rw [Function.update_of_ne hne, Function.update_of_ne hne]
      exact h.node m
  · dsimp only
    rw [h.nodeCount]
    rcases eq_or_ne m fs.nodeCount with rfl | hne
    · rw [Function.update_self, Function.update_self]
    · rw [Function.update_of_ne hne, Function.update_of_ne hne]
      exact h.size m fun hnamed => hm (hold m hnamed)
  · refine h.data j fun m hm => ?_
    have harea := hj m (hold m hm)
    rw [area] at harea ⊢
    dsimp only at harea
    rwa [Function.update_of_ne (Nat.ne_of_lt hm.2.1)] at harea

theorem Similar.allocNode (h : Similar names fs fs') (parent : Nat) (type : McsVnodeType)
    (name : List UInt8) (nameLen capacity : Nat) :
    (mcsAllocNode fs' parent type name nameLen capacity).2 =
        (mcsAllocNode fs parent type name nameLen capacity).2 ∧
      Similar names (mcsAllocNode fs parent type name nameLen capacity).1
        (mcsAllocNode fs' parent type name nameLen capacity).1 := by
  rw [mcsAllocNode, mcsAllocNode, h.nodeCount, h.dataUsed]
  split
  · exact ⟨rfl, h⟩
  · split
    · exact ⟨rfl, h⟩
    · split
      · exact ⟨rfl, h⟩
      · refine ⟨rfl, ?_⟩
        have hadd := h.addNode
          { used := true, id := fs.nodeCount % 2 ^ 32, parent := parent, type := type,
            name := mcsCopyName name nameLen, size := 0,
            dataOffset := if type = .file then fs.dataUsed else 0,
            dataCapacity := if type = .file then capacity else 0 }
          (if type = .file then (fs.dataUsed + capacity) % 2 ^ 64 else fs.dataUsed)
        rw [h.nodeCount] at hadd
        exact hadd

theorem Similar.createFile (h : Similar names fs fs') (path : Option (List UInt8)) :
    (mcsRamfsCreateFile fs' path).2 = (mcsRamfsCreateFile fs path).2 ∧
      Similar names (mcsRamfsCreateFile fs path).1 (mcsRamfsCreateFile fs' path).1 := by
  have htype : ∀ m, (fs'.nodes m).type = (fs.nodes m).type := fun m => by rw [h.node m]
  have hid : ∀ m, (fs'.nodes m).id = (fs.nodes m).id := fun m => by rw [h.node m]
  rcases path with _ | path
  · exact ⟨rfl, h⟩
  · rw [mcsRamfsCreateFile, mcsRamfsCreateFile, h.lookup, h.splitParentLeaf]
    split
    · rw [htype]
      split
      · exact ⟨rfl, h⟩
      · exact ⟨rfl, h⟩
    · split
      · exact ⟨rfl, h⟩
      · rw [htype, hid]
        split
        · exact ⟨rfl, h⟩
        · exact h.allocNode ..

theorem Similar.openNode (h : Similar names fs fs') (path : Option (List UInt8))
    (flags : UInt32) :
    (openNode fs' path flags).2 = (openNode fs path flags).2 ∧
      Similar names (openNode fs path flags).1 (openNode fs' path flags).1 := by
  rw [FdModel.openNode, FdModel.openNode, h.lookup]
  split
  · exact ⟨rfl, h⟩
  · split
    · exact ⟨rfl, h⟩
    · exact h.createFile path

theorem Similar.openDescriptor (h : Similar names fs fs') (table : McsFdTable)
    (hn : ¬Named names fs n) (flags : UInt32) :
    (openDescriptor table fs' n flags).1 = (openDescriptor table fs n flags).1 ∧
      (openDescriptor table fs' n flags).2.2 = (openDescriptor table fs n flags).2.2 ∧
      Similar names (openDescriptor table fs n flags).2.1
        (openDescriptor table fs' n flags).2.1 := by
  have htruncated : Similar names (fs.setSize n 0) (fs'.setSize n 0) := by
    refine h.rewrite (rewritten_setSize fs n 0) (rewritten_setSize fs' n 0) (fun m hm => ?_) h.data
    rcases eq_or_ne m n with rfl | hne
    · simp [McsRamfs.setSize]
    · simp [McsRamfs.setSize, hne, h.size m hm]
  rw [FdModel.openDescriptor, FdModel.openDescriptor, h.node_eq hn]
  split
  · exact ⟨rfl, rfl, h⟩
  · rcases mcsFdAlloc table with ⟨table', rc | fd⟩
    · exact ⟨rfl, rfl, h⟩
    · dsimp only
      by_cases htrunc : flags &&& mcsOTrunc ≠ 0
      · rw [if_pos htrunc, if_pos htrunc]
        split
        · exact ⟨rfl, rfl, h⟩
        · exact ⟨rfl, rfl, htruncated⟩
      · rw [if_neg htrunc, if_neg htrunc]
        exact ⟨rfl, rfl, h⟩

theorem area_disjoint (h : RamfsInv fs) {m : Nat} (hn : 0 < n) (hlt : n < fs.nodeCount)
    (hm : 0 < m) (hlt' : m < fs.nodeCount) (hne : m ≠ n) {j : Nat} (hj : j ∈ area fs n) :
    j ∉ area fs m := by
  rw [area, (h.file n hn hlt).dataOffset, Set.mem_Ico] at hj
  rw [area, (h.file m hm hlt').dataOffset, Set.mem_Ico]
  unfold fileCapacity at *
  omega

theorem Similar.data_area (h : Similar names fs fs') (hinv : RamfsInv fs) (hpos : 0 < n)
    (hlt : n < fs.nodeCount) (hn : ¬Named names fs n) {j : Nat} (hj : j ∈ area fs n) :
    fs'.data j = fs.data j := by
  refine h.data j fun m hm => ?_
  refine area_disjoint hinv hpos hlt hm.1 hm.2.1 ?_ hj
  rintro rfl
  exact hn hm

/-- The descriptor is on a file that others do not write to. -/
def Apart (names : Set (List UInt8)) (fs : McsRamfs) (file : McsFile) : Prop :=
  ∀ n, file.node = some n → ¬Named names fs n

variable {table : McsFdTable} {fd : Int} {slot : Nat}

theorem Similar.read (h : Similar names fs fs') (hinv : RamfsInv fs)
    (htable : TableInv fs table)
    (hapart : ∀ slot, mcsFdGet table fd = some slot → Apart names fs (table slot))
    (buf : Bool) (len : Nat) :
    mcsVfsRead table fs' fd buf len = mcsVfsRead table fs fd buf len := by
  rw [mcsVfsRead, mcsVfsRead]
  split
  · rfl
  · rcases hget : mcsFdGet table fd with _ | slot
    · rfl
    · obtain ⟨hslot, hused⟩ := mcsFdGet_some hget
      obtain ⟨hfs, n, hnode, hlt⟩ := htable slot hslot hused
      have hn := hapart slot hget n hnode
      dsimp only
      split
      · rfl
      · rw [hnode, hfs]
        dsimp only
        rw [h.node_eq hn]
        split
        · rfl
        case isFalse hdir =>
          split
          · rfl
          case isFalse hend =>
            have hpos : 0 < n := hinv.pos_of_file hdir
            have hbytes : ∀ j ∈ dataIndices ((fs.nodes n).dataOffset + (table slot).offset)
                (min len ((fs.nodes n).size - (table slot).offset)), fs'.data j = fs.data j := by
              intro j hj
              have hsize := (hinv.file n hpos hlt).size
              rw [mem_dataIndices] at hj
              refine h.data_area hinv hpos hlt hn ?_
              rw [area, Set.mem_Ico]
              omega
            rw [List.map_congr_left hbytes]

theorem Similar.lseek (h : Similar names fs fs')
    (hapart : ∀ slot, mcsFdGet table fd = some slot → Apart names fs (table slot))
    (offset whence : Int) :
    mcsVfsLseek table fs' fd offset whence = mcsVfsLseek table fs fd offset whence := by
  rw [mcsVfsLseek, mcsVfsLseek]
  rcases hget : mcsFdGet table fd with _ | slot
  · rfl
  · dsimp only
    rcases hnode : (table slot).node with _ | n
    · rfl
    · dsimp only
      rw [h.node_eq (hapart slot hget n hnode)]

theorem Similar.written (h : Similar names fs fs') (hn : ¬Named names fs n) (offset : Nat)
    (buf : Nat → UInt8) (len : Nat) :
    Similar names (writtenFs fs n offset buf len) (writtenFs fs' n offset buf len) := by
  refine h.rewrite (rewritten_writtenFs ..) (rewritten_writtenFs ..) (fun m hm => ?_) fun j hj => ?_
  · rw [writtenFs_node, writtenFs_node, h.node_eq hn]
    rcases eq_or_ne m n with rfl | hne
    · rw [if_pos rfl, if_pos rfl]
    · rw [if_neg hne, if_neg hne, h.size m hm]
  · rw [writtenFs_data, writtenFs_data, h.node_eq hn, copyBytes, copyBytes]
    split
    · rfl
    · exact h.data j hj

theorem Similar.write (h : Similar names fs fs') (hinv : RamfsInv fs) (hinv' : RamfsInv fs')
    (htable : TableInv fs table)
    (hapart : ∀ slot, mcsFdGet table fd = some slot → Apart names fs (table slot))
    (buf : Option (Nat → UInt8)) (len : Nat) :
    (mcsVfsWrite table fs' fd buf len).table = (mcsVfsWrite table fs fd buf len).table ∧
      (mcsVfsWrite table fs' fd buf len).ret = (mcsVfsWrite table fs fd buf len).ret ∧
      Similar names (mcsVfsWrite table fs fd buf len).fs
        (mcsVfsWrite table fs' fd buf len).fs := by
  by_cases hnull : buf.isNone = true ∧ len ≠ 0
  · rw [mcsVfsWrite, mcsVfsWrite, if_pos hnull, if_pos hnull]
    exact ⟨rfl, rfl, h⟩
  · rcases hget : mcsFdGet table fd with _ | slot
    · rw [mcsVfsWrite, mcsVfsWrite, if_neg hnull, if_neg hnull, hget]
      exact ⟨rfl, rfl, h⟩
    · obtain ⟨hfs, n, hnode, hlt⟩ := htable.node hget
      have hn := hapart slot hget n hnode
      rcases hcan : mcsCanWrite (table slot).flags
      · rw [mcsVfsWrite, mcsVfsWrite, if_neg hnull, if_neg hnull, hget]
        dsimp only
        rw [if_pos hcan, if_pos hcan]
        exact ⟨rfl, rfl, h⟩
      · rcases Nat.eq_zero_or_pos n with rfl | hpos
        · rw [mcsVfsWrite, mcsVfsWrite, if_neg hnull, if_neg hnull, hget]
          dsimp only
          rw [hcan, if_neg (by decide), if_neg (by decide), hnode, hfs]
          dsimp only
          rw [if_pos hinv.root, if_pos hinv'.root]
          exact ⟨rfl, rfl, h⟩
        · have htable' : TableInv fs' table := htable.mono h.nodeCount.ge
          have hstart : writeStart fs' (table slot) n = writeStart fs (table slot) n := by
            rw [writeStart, writeStart, h.node_eq hn]
          rw [mcsVfsWrite_file hinv htable hnull hget hcan hnode hpos hlt,
            mcsVfsWrite_file hinv' htable' hnull hget hcan hnode hpos (h.nodeCount ▸ hlt), hstart]
          split
          · exact ⟨rfl, rfl, h⟩
          · split
            · exact ⟨rfl, rfl, h⟩
            · exact ⟨rfl, rfl, h.written hn ..⟩

theorem cString_of_named {path name : List UInt8} {array : Nat → UInt8}
    (h : ∃ name, resolve path = .entry name ∧ PaddedName array name)
    (hname : PaddedName array name) : cString path = slash :: name := by
  obtain ⟨name', htarget, hname'⟩ := h
  rw [paddedName_unique hname' hname] at htarget
  exact cString_of_entry htarget

theorem named_of_path {path : List UInt8} (hpos : 0 < n) (hlt : n < fs.nodeCount)
    (h : ∃ name, resolve path = .entry name ∧ PaddedName (fs.nodes n).name name)
    (hpath : ∃ name ∈ names, cString path = slash :: name) : Named names fs n := by
  obtain ⟨name, htarget, hname⟩ := h
  obtain ⟨name', hmem, hstring⟩ := hpath
  rw [cString_of_entry htarget] at hstring
  rw [(List.cons.inj hstring).2] at hname
  exact ⟨hpos, hlt, name', hmem, hname⟩

theorem opened_apart {files : List ByteFile} (hrep : Represents fs files) {path : List UInt8}
    {flags : UInt32} {fs₁ : McsRamfs} (hopened : OpenedNode fs path flags fs₁ n)
    (hpath : ∀ name ∈ names, cString path ≠ slash :: name) : ¬Named names fs₁ n := by
  rintro ⟨hpos, -, name, hmem, hname⟩
  exact hpath name hmem (cString_of_named (hopened.named hrep hpos) hname)

theorem Similar.vfsOpen {files : List ByteFile} (h : Similar names fs fs')
    (hrep : Represents fs files) (table : McsFdTable) {path : List UInt8}
    (hpath : ∀ name ∈ names, cString path ≠ slash :: name) (flags : UInt32) :
    (mcsVfsOpen table fs' (some path) flags).1 = (mcsVfsOpen table fs (some path) flags).1 ∧
      (mcsVfsOpen table fs' (some path) flags).2.2 =
        (mcsVfsOpen table fs (some path) flags).2.2 ∧
      Similar names (mcsVfsOpen table fs (some path) flags).2.1
        (mcsVfsOpen table fs' (some path) flags).2.1 := by
  obtain ⟨hresult, hsimilar⟩ := h.openNode (some path) (defaultFlags flags)
  simp only [mcsVfsOpen]
  rcases openNode_cases hrep path (defaultFlags flags) with
    ⟨rc, hopen⟩ | ⟨fs₁, n, hopened, hopen⟩
  · rcases hopen' : FdModel.openNode fs' (some path) (defaultFlags flags) with ⟨fs₁', result⟩
    rw [hopen, hopen'] at hresult hsimilar
    obtain rfl : result = .error rc := hresult
    rw [hopen]
    exact ⟨rfl, rfl, hsimilar⟩
  · rcases hopen' : FdModel.openNode fs' (some path) (defaultFlags flags) with ⟨fs₁', result⟩
    rw [hopen, hopen'] at hresult hsimilar
    obtain rfl : result = .ok n := hresult
    rw [hopen]
    exact hsimilar.openDescriptor table (opened_apart hrep hopened hpath) (defaultFlags flags)

theorem Similar.changeNamed {fs₁ : McsRamfs} (h : Similar names fs fs') (hn : Named names fs n)
    (hleft : Rewritten fs fs₁) (hsize : ∀ m, m ≠ n → (fs₁.nodes m).size = (fs.nodes m).size)
    (hdata : ∀ j, j ∉ area fs n → fs₁.data j = fs.data j) : Similar names fs₁ fs' := by
  refine h.rewrite hleft (.refl fs') (fun m hm => ?_) fun j hj => ?_
  · rw [hsize m, h.size m hm]
    rintro rfl
    exact hm hn
  · rw [hdata j (hj n hn), h.data j hj]

theorem Similar.sameFile {files : List ByteFile} (h : Similar names fs fs')
    (hrep : Represents fs files) (hlt : n < fs.nodeCount) (hn : ¬Named names fs n) :
    SameFile fs fs' n := by
  refine ⟨h.node_eq hn, ?_⟩
  rw [fileBytes, fileBytes, h.node_eq hn]
  refine List.map_congr_left fun j hj => ?_
  rw [mem_dataIndices] at hj
  rcases Nat.eq_zero_or_pos n with rfl | hpos
  · rw [hrep.root_size] at hj
    omega
  · have hsize := (hrep.inv.file n hpos hlt).size
    refine h.data_area hrep.inv hpos hlt hn ?_
    rw [area, Set.mem_Ico]
    omega

end Congruence

/-- What the two groups of processes may open: the visible ones no file with one of these
names, the hidden ones anything for reading, but for writing only such files, and they create
none.  A new file takes room that the others would miss. -/
def Permitted (hidden : Nat → Bool) (names : Set (List UInt8)) (i : Nat) : SysCall → Prop
  | .sysOpen _ (some path) flags =>
      if hidden i then
        flags &&& mcsOCreat = 0 ∧
          (mcsCanWrite flags = true → ∃ name ∈ names, cString path = slash :: name)
      else ∀ name ∈ names, cString path ≠ slash :: name
  | _ => True

/-- The calls of all processes, in any order. -/
def sysSystem (hidden : Nat → Bool) (names : Set (List UInt8)) :
    System VfsWorld (Option Nat × SysCall) VfsResult where
  allowed w event := ∀ i, event.1 = some i →
    w.Allowed (sysCallOf i event.2) ∧ Permitted hidden names i event.2
  step w event := some (sysStep w event.1 event.2)

def ofHidden (hidden : Nat → Bool) (event : Option Nat × SysCall) : Bool :=
  match event.1 with
  | none => false
  | some i => hidden i

/-- The descriptors that the two groups hold. -/
structure Separated (hidden : Nat → Bool) (names : Set (List UInt8)) (w : VfsWorld) : Prop where
  visible : ∀ i slot, hidden i = false → slot < mcsMaxOpenFiles →
    (w.tables i slot).used = true → Apart names w.fs (w.tables i slot)
  hidden : ∀ i slot n, hidden i = true → slot < mcsMaxOpenFiles →
    (w.tables i slot).used = true → mcsCanWrite (w.tables i slot).flags = true →
    (w.tables i slot).node = some n → 0 < n → Named names w.fs n

/-- Two worlds that the visible processes cannot tell apart. -/
structure Twins (hidden : Nat → Bool) (names : Set (List UInt8)) (w w' : VfsWorld) : Prop where
  sound : Sound w
  sound' : Sound w'
  separated : Separated hidden names w
  similar : Similar names w.fs w'.fs
  tables : ∀ i, hidden i = false → w'.tables i = w.tables i

section Processes

variable {hidden : Nat → Bool} {names : Set (List UInt8)} {w w' : VfsWorld} {i : Nat}

theorem callTable_sysCallOf (i : Nat) (call : SysCall) :
    callTable (sysCallOf i call) = some i := by
  cases call <;> rfl

theorem named_step (h : Sound w) (call : VfsCall) {n : Nat} (hn : n < w.fs.nodeCount) :
    Named names (w.step call).1.fs n ↔ Named names w.fs n := by
  obtain ⟨files, hrep⟩ := h.represents
  have hlt := Nat.lt_of_lt_of_le hn (step_nodeCount h.inv call)
  rw [Named, Named, step_name h.inv hrep hn]
  exact ⟨fun h => ⟨h.1, hn, h.2.2⟩, fun h => ⟨h.1, hlt, h.2.2⟩⟩

theorem Separated.step (h : Separated hidden names w) (hsound : Sound w) {call : SysCall}
    (hpermitted : Permitted hidden names i call) :
    Separated hidden names (w.step (sysCallOf i call)).1 := by
  obtain ⟨files, hrep⟩ := hsound.represents
  have hopen : ∀ {j path flags}, sysCallOf i call = .vfsOpen j (some path) flags →
      j = i ∧ ∃ fs, call = .sysOpen fs (some path) flags := by
    intro j path flags heq
    cases call <;> cases heq
    exact ⟨rfl, _, rfl⟩
  constructor
  · intro j slot hj hslot hused n hnode
    rcases step_descriptor hrep (sysCallOf i call) j hslot hused with
      ⟨old, hold, holdUsed, -, hkept⟩ | ⟨path, flags, m, hcall, -, hm, hname⟩
    · rw [hkept] at hnode
      obtain ⟨-, k, hk, hlt⟩ := hsound.inv.tables j old hold holdUsed
      cases hk.symm.trans hnode
      rw [named_step hsound _ hlt]
      exact h.visible j old hj hold holdUsed n hnode
    · cases hm.symm.trans hnode
      obtain ⟨rfl, fs, rfl⟩ := hopen hcall
      rw [Permitted, hj, if_neg Bool.false_ne_true] at hpermitted
      rintro ⟨hpos, -, name, hmem, hpadded⟩
      exact hpermitted name hmem (cString_of_named (hname hpos) hpadded)
  · intro j slot n hj hslot hused hcan hnode hpos
    have hinv := (hsound.step (sysCallOf i call)).inv
    rcases step_descriptor hrep (sysCallOf i call) j hslot hused with
      ⟨old, hold, holdUsed, hflags, hkept⟩ | ⟨path, flags, m, hcall, hflags, hm, hname⟩
    · rw [hkept] at hnode
      rw [hflags] at hcan
      obtain ⟨-, k, hk, hlt⟩ := hsound.inv.tables j old hold holdUsed
      cases hk.symm.trans hnode
      rw [named_step hsound _ hlt]
      exact h.hidden j old n hj hold holdUsed hcan hnode hpos
    · obtain ⟨-, k, hk, hlt⟩ := hinv.tables j slot hslot hused
      cases hm.symm.trans hnode
      cases hk.symm.trans hnode
      obtain ⟨rfl, fs, rfl⟩ := hopen hcall
      rw [Permitted, if_pos hj] at hpermitted
      rw [hflags, mcsCanWrite_defaultFlags] at hcan
      exact named_of_path hpos hlt (hname hpos) (hpermitted.2 hcan)

theorem Twins.hiddenStep (h : Twins hidden names w w') (hi : hidden i = true) {call : SysCall}
    (hpermitted : Permitted hidden names i call) :
    Twins hidden names (w.step (sysCallOf i call)).1 w' := by
  obtain ⟨files, hrep⟩ := h.sound.represents
  refine ⟨h.sound.step _, h.sound', h.separated.step h.sound hpermitted, ?_, fun j hj => ?_⟩
  · cases call with
    | sysOpen fs userPath flags =>
        rcases userPath with _ | path
        · exact h.similar
        · rw [Permitted, if_pos hi] at hpermitted
          change Similar names (mcsVfsOpen (w.tables i) w.fs (some path) flags).2.1 w'.fs
          rcases mcsVfsOpen_fs hrep path flags with
            hfs | ⟨-, -, -, -, hcreat, -, -⟩ | ⟨n, hpos, hlt, hlookup, -, hcan, hfs⟩
          · rw [hfs]
            exact h.similar
          · rw [defaultFlags_and (by decide)] at hcreat
            exact absurd hpermitted.1 hcreat
          · rw [hfs]
            rw [mcsCanWrite_defaultFlags] at hcan
            have hnamed := named_of_path hpos hlt (lookup_named hrep hpos hlookup)
              (hpermitted.2 hcan)
            refine h.similar.changeNamed hnamed (rewritten_setSize w.fs n 0) (fun m hne => ?_)
              fun _ _ => rfl
            exact congrArg McsVnode.size (Function.update_of_ne hne _ _)
    | sysRead fd userBuf len => exact h.similar
    | sysWrite fd userBuf len =>
        change Similar names (mcsVfsWrite (w.tables i) w.fs fd userBuf len).fs w'.fs
        rcases mcsVfsWrite_fs h.sound.inv.ramfs (h.sound.inv.tables i) fd userBuf len with
          hfs | ⟨slot, n, hget, hcan, hnode, hpos, hlt, hfits, hfs⟩
        · rw [hfs]
          exact h.similar
        · obtain ⟨hslot, hused⟩ := mcsFdGet_some hget
          rw [hfs]
          refine h.similar.changeNamed
            (h.separated.hidden i slot n hi hslot hused hcan hnode hpos)
            (rewritten_writtenFs ..) (fun m hne => ?_) fun j hj => ?_
          · rw [writtenFs_node, if_neg hne]
          · rw [area, Set.mem_Ico] at hj
            rw [writtenFs_data, copyBytes]
            exact if_neg (by omega)
    | sysClose fd => exact h.similar
    | sysLseek fd offset whence => exact h.similar
  · rw [h.tables j hj, step_otherTable]
    rw [callTable_sysCallOf]
    rintro heq
    cases heq
    rw [hi] at hj
    cases hj

theorem Twins.apart (h : Twins hidden names w w') (hi : hidden i = false) (fd : Int) (slot : Nat)
    (hget : mcsFdGet (w.tables i) fd = some slot) : Apart names w.fs (w.tables i slot) := by
  obtain ⟨hslot, hused⟩ := mcsFdGet_some hget
  exact h.separated.visible i slot hi hslot hused

theorem Twins.visibleStep (h : Twins hidden names w w') (hi : hidden i = false) {call : SysCall}
    (hpermitted : Permitted hidden names i call) :
    (w'.step (sysCallOf i call)).2 = (w.step (sysCallOf i call)).2 ∧
      Twins hidden names (w.step (sysCallOf i call)).1 (w'.step (sysCallOf i call)).1 := by
  obtain ⟨files, hrep⟩ := h.sound.represents
  have hinv := h.sound.inv
  -- The results, the table of the process and the file systems agree; other tables stay.
  have hsame : (w'.step (sysCallOf i call)).2 = (w.step (sysCallOf i call)).2 ∧
      (w'.step (sysCallOf i call)).1.tables i = (w.step (sysCallOf i call)).1.tables i ∧
      Similar names (w.step (sysCallOf i call)).1.fs (w'.step (sysCallOf i call)).1.fs := by
    cases call with
    | sysOpen fs userPath flags =>
        simp only [sysCallOf, VfsWorld.step, tables_setTable]
        rw [h.tables i hi]
        rcases userPath with _ | path
        · exact ⟨rfl, rfl, h.similar⟩
        · rw [Permitted, hi, if_neg Bool.false_ne_true] at hpermitted
          obtain ⟨htable, hret, hfs⟩ :=
            h.similar.vfsOpen hrep (w.tables i) hpermitted flags
          exact ⟨by rw [hret], htable, hfs⟩
    | sysRead fd userBuf len =>
        simp only [sysCallOf, VfsWorld.step, tables_setTable]
        rw [h.tables i hi, h.similar.read hinv.ramfs (hinv.tables i) (h.apart hi fd)]
        exact ⟨rfl, rfl, h.similar⟩
    | sysWrite fd userBuf len =>
        simp only [sysCallOf, VfsWorld.step, tables_setTable]
        rw [h.tables i hi]
        obtain ⟨htable, hret, hfs⟩ := h.similar.write hinv.ramfs h.sound'.inv.ramfs
          (hinv.tables i) (h.apart hi fd) userBuf len
        exact ⟨by rw [hret], htable, hfs⟩
    | sysClose fd =>
        simp only [sysCallOf, VfsWorld.step, tables_setTable]
        rw [h.tables i hi]
        exact ⟨rfl, rfl, h.similar⟩
    | sysLseek fd offset whence =>
        simp only [sysCallOf, VfsWorld.step, tables_setTable]
        rw [h.tables i hi, h.similar.lseek (h.apart hi fd)]
        exact ⟨rfl, rfl, h.similar⟩
  refine ⟨hsame.1, h.sound.step _, h.sound'.step _, h.separated.step h.sound hpermitted,
    hsame.2.2, fun j hj => ?_⟩
  rcases eq_or_ne j i with rfl | hne
  · exact hsame.2.1
  · have hother : callTable (sysCallOf i call) ≠ some j := by
      rw [callTable_sysCallOf]
      exact fun heq => hne (Option.some.inj heq).symm
    rw [step_otherTable hother, step_otherTable hother, h.tables j hj]

theorem Twins.allowed (h : Twins hidden names w w') (hi : hidden i = false) {call : SysCall}
    (hallowed : w.Allowed (sysCallOf i call)) : w'.Allowed (sysCallOf i call) := by
  cases call with
  | sysOpen fs userPath flags => exact hallowed
  | sysRead fd userBuf len => exact hallowed
  | sysWrite fd userBuf len => exact hallowed
  | sysClose fd => exact hallowed
  | sysLseek fd offset whence =>
      intro slot n base hget hnode hbase
      rw [h.tables i hi] at hget hnode hbase
      rw [h.similar.node_eq (h.apart hi fd slot hget n hnode)] at hbase
      exact hallowed slot n base hget hnode hbase

theorem Twins.hiddenEvent (h : Twins hidden names w w') {event : Option Nat × SysCall}
    (hallowed : (sysSystem hidden names).allowed w event) (hhidden : ofHidden hidden event = true) :
    Twins hidden names (sysStep w event.1 event.2).1 w' := by
  obtain ⟨proc, call⟩ := event
  rcases sysStep_cases proc call with hrefused | ⟨i, rfl, hcall⟩
  · rw [hrefused]
    exact h
  · rw [hcall]
    exact h.hiddenStep hhidden (hallowed i rfl).2

theorem Twins.visibleEvent (h : Twins hidden names w w') {event : Option Nat × SysCall}
    (hallowed : (sysSystem hidden names).allowed w event)
    (hvisible : ofHidden hidden event = false) :
    (sysSystem hidden names).allowed w' event ∧
      (sysStep w' event.1 event.2).2 = (sysStep w event.1 event.2).2 ∧
      Twins hidden names (sysStep w event.1 event.2).1 (sysStep w' event.1 event.2).1 := by
  obtain ⟨proc, call⟩ := event
  constructor
  · rintro i rfl
    exact ⟨h.allowed hvisible (hallowed i rfl).1, (hallowed i rfl).2⟩
  · rcases sysStep_cases proc call with hrefused | ⟨i, rfl, hcall⟩
    · rw [hrefused, hrefused]
      exact ⟨rfl, h⟩
    · rw [hcall, hcall]
      exact h.visibleStep hvisible (hallowed i rfl).2

/-- Take all calls of the hidden processes out of a run, and what is left is a run again: each
call of the other processes returns what it returned, and in the end their descriptors and
all the files but those named are the same. -/
theorem run_without_hidden {fs : McsRamfs} {tables : Nat → McsFdTable}
    {setup : List (VfsCall × VfsResult)} {w w₁ : VfsWorld}
    {trace : List ((Option Nat × SysCall) × VfsResult)}
    (hsetup : Run callSystem (startWorld fs tables) setup w)
    (hseparated : Separated hidden names w) (hrun : Run (sysSystem hidden names) w trace w₁) :
    ∃ w₂, Run (sysSystem hidden names) w
        (trace.filter fun event => !ofHidden hidden event.1) w₂ ∧
      (∀ i, hidden i = false → w₂.tables i = w₁.tables i) ∧
      w₂.fs.nodeCount = w₁.fs.nodeCount ∧
      ∀ n, n < w₁.fs.nodeCount → ¬Named names w₁.fs n → SameFile w₁.fs w₂.fs n := by
  have hsound : Sound w := sound_run hsetup
  have hstart : Twins hidden names w w :=
    ⟨hsound, hsound, hseparated, .refl names w.fs, fun _ _ => rfl⟩
  have hpurge := hrun.purge (ofHidden hidden) (Twins hidden names)
    (fun s s' event t result htwins hallowed hhidden hstep => by
      obtain ⟨rfl, rfl⟩ := Prod.ext_iff.mp (Option.some.inj hstep)
      exact htwins.hiddenEvent hallowed hhidden)
    (fun s s' event t result htwins hallowed hvisible hstep => by
      obtain ⟨rfl, rfl⟩ := Prod.ext_iff.mp (Option.some.inj hstep)
      obtain ⟨hallowed', hresult, hnext⟩ := htwins.visibleEvent hallowed hvisible
      exact ⟨hallowed', _, congrArg some (Prod.ext rfl hresult), hnext⟩) hstart
  obtain ⟨w₂, hpurged, hend⟩ := hpurge
  obtain ⟨files, hrep⟩ := hend.sound.represents
  exact ⟨w₂, hpurged, hend.tables, hend.similar.nodeCount,
    fun n hlt hn => hend.similar.sameFile hrep hlt hn⟩

theorem separated_of_closed
    (h : ∀ i slot, slot < mcsMaxOpenFiles → (w.tables i slot).used = false) :
    Separated hidden names w := by
  have hclosed : ∀ i slot, slot < mcsMaxOpenFiles → (w.tables i slot).used = true → False := by
    intro i slot hslot hused
    rw [h i slot hslot] at hused
    cases hused
  exact ⟨fun i slot _ hslot hused => (hclosed i slot hslot hused).elim,
    fun i slot _ _ hslot hused => (hclosed i slot hslot hused).elim⟩

end Processes

/-- Two files, `/a` and `/b`, and nothing open. -/
def pairWorld : VfsWorld :=
  [.createFile (some [slash, 0x61]), .createFile (some [slash, 0x62])].foldl
    (fun w call => (w.step call).1) freshWorld

/-- Process 1 writes to `/b` between the calls of process 0 on `/a`. -/
def pairCalls : List (Option Nat × SysCall) :=
  [(some 0, .sysOpen true (some [slash, 0x61]) mcsORdwr),
    (some 1, .sysOpen true (some [slash, 0x62]) mcsOWronly),
    (some 1, .sysWrite 0 (some fun _ => 7) 5),
    (some 0, .sysWrite 0 (some fun _ => 9) 3),
    (some 0, .sysLseek 0 1 0),
    (some 0, .sysRead 0 true 8)]

theorem run_without_hidden_pairCalls :
    ∃ w₂, Run (sysSystem (· == 1) {[0x62]}) pairWorld
      [((some 0, .sysOpen true (some [slash, 0x61]) mcsORdwr), ⟨0, []⟩),
        ((some 0, .sysWrite 0 (some fun _ => 9) 3), ⟨3, []⟩),
        ((some 0, .sysLseek 0 1 0), ⟨1, []⟩),
        ((some 0, .sysRead 0 true 8), ⟨2, [9, 9]⟩)] w₂ := by
  have hsetup : Run callSystem freshWorld
      [(.createFile (some [slash, 0x61]), ⟨0, []⟩), (.createFile (some [slash, 0x62]), ⟨0, []⟩)]
      pairWorld :=
    .cons trivial rfl (.cons trivial rfl (.nil _))
  have hrun : Run (sysSystem (· == 1) {[0x62]}) pairWorld
      (pairCalls.zip [⟨0, []⟩, ⟨0, []⟩, ⟨5, []⟩, ⟨3, []⟩, ⟨1, []⟩, ⟨2, [9, 9]⟩])
      (pairCalls.foldl (fun w event => (sysStep w event.1 event.2).1) pairWorld) := by
    refine .cons ?_ rfl (.cons ?_ rfl (.cons ?_ rfl (.cons ?_ rfl (.cons ?_ rfl (.cons ?_ rfl
      (.nil _))))))
    · rintro i ⟨⟩
      refine ⟨trivial, ?_⟩
      rintro name rfl
      decide
    · rintro i ⟨⟩
      exact ⟨trivial, by decide, fun _ => ⟨[0x62], rfl, by decide⟩⟩
    · rintro i ⟨⟩
      exact ⟨(by decide : 5 < 2 ^ 64), trivial⟩
    · rintro i ⟨⟩
      exact ⟨(by decide : 3 < 2 ^ 64), trivial⟩
    · rintro i ⟨⟩
      refine ⟨fun slot n base _ _ hbase => ?_, trivial⟩
      obtain rfl : 0 = base := Option.some.inj hbase
      decide
    · rintro i ⟨⟩
      exact ⟨(by decide : 8 < 2 ^ 64), trivial⟩
  obtain ⟨w₂, hpurged, -⟩ := run_without_hidden hsetup (separated_of_closed fun i slot hslot => by
    change (mcsFdTableInit _ slot).used = false
    rw [mcsFdTableInit, if_pos hslot]
    rfl) hrun
  exact ⟨w₂, hpurged⟩

end Mcsos.VfsIsolation

import Mcsos.VfsDescriptors
import Mcsos.VfsNames

/-!
Bounds on the offsets of descriptors.  Only a seek can take an offset behind the capacity of the
files, so that a bound which the seeks respect holds of all offsets.
-/

namespace Mcsos.VfsOffsets

open Mcsos.CallSystem
open Mcsos.RamfsModel
open Mcsos.FdModel
open Mcsos.VfsInvariant
open Mcsos.ByteFiles
open Mcsos.VfsDescriptors
open Mcsos.VfsNames

def OffsetsBelow (bound : Nat) (table : McsFdTable) : Prop :=
  ∀ slot < mcsMaxOpenFiles, (table slot).offset < bound

/-- The offset that a seek sets is below the bound. -/
def SeekBelow (bound : Nat) (table : McsFdTable) (fs : McsRamfs) (fd offset whence : Int) : Prop :=
  ∀ slot n base, mcsFdGet table fd = some slot → (table slot).node = some n →
    seekBase (table slot) (fs.nodes n).size whence = some base →
      Int.bmod (base + offset) (2 ^ 64) < bound

section Table

variable {bound : Nat} {fs : McsRamfs} {table : McsFdTable}

theorem offsetsBelow_init (hbound : fileCapacity < bound) (table : McsFdTable) :
    OffsetsBelow bound (mcsFdTableInit table) := by
  intro slot hslot
  rw [mcsFdTableInit, if_pos hslot, closedFile]
  exact Nat.zero_lt_of_lt hbound

theorem OffsetsBelow.update (h : OffsetsBelow bound table) {slot : Nat} {file : McsFile}
    (hfile : file.offset < bound) : OffsetsBelow bound (Function.update table slot file) := by
  intro i hi
  rcases eq_or_ne i slot with rfl | hne
  · rw [Function.update_self]
    exact hfile
  · rw [Function.update_of_ne hne]
    exact h i hi

theorem OffsetsBelow.used (h : OffsetsBelow bound table) {slot : Nat}
    (hslot : slot < mcsMaxOpenFiles) :
    OffsetsBelow bound (Function.update table slot { table slot with used := true }) :=
  h.update (h slot hslot)

theorem size_le_capacity {files : List ByteFile} (h : Represents fs files) {n : Nat}
    (hn : n < fs.nodeCount) : (fs.nodes n).size ≤ fileCapacity := by
  rcases Nat.eq_zero_or_pos n with rfl | hpos
  · rw [h.root_size]
    exact Nat.zero_le _
  · exact (h.inv.file n hpos hn).size

theorem OffsetsBelow.read (hoffsets : OffsetsBelow bound table) (hbound : fileCapacity < bound)
    (h : RamfsInv fs) (htable : TableInv fs table) (fd : Int) (buf : Bool) (len : Nat) :
    OffsetsBelow bound (mcsVfsRead table fs fd buf len).table := by
  unfold mcsVfsRead
  split
  · exact hoffsets
  · split
    · exact hoffsets
    case h_2 slot hget =>
      obtain ⟨hfs, n, hnode, hn⟩ := htable.node hget
      dsimp only
      split
      · exact hoffsets
      · rw [hnode, hfs]
        dsimp only
        split
        · exact hoffsets
        case isFalse hfile =>
          split
          · exact hoffsets
          case isFalse hend =>
            have hsize := (h.file n (h.pos_of_file hfile) hn).size
            apply hoffsets.update
            dsimp only
            omega

theorem OffsetsBelow.writeAt (hoffsets : OffsetsBelow bound table) (hbound : fileCapacity < bound)
    {n : Nat} (hcapacity : (fs.nodes n).dataCapacity = fileCapacity) (slot : Nat) {file : McsFile}
    (hfile : file.offset < bound) (buf : Nat → UInt8) (len : Nat) :
    OffsetsBelow bound (FdModel.writeAt table fs slot file n buf len).table := by
  rw [FdModel.writeAt]
  dsimp only
  split
  · exact hoffsets.update hfile
  · split
    · exact hoffsets.update hfile
    · apply (hoffsets.update hfile).update
      dsimp only
      omega

theorem OffsetsBelow.write (hoffsets : OffsetsBelow bound table) (hbound : fileCapacity < bound)
    (h : RamfsInv fs) (htable : TableInv fs table) (fd : Int) (buf : Option (Nat → UInt8))
    (len : Nat) : OffsetsBelow bound (mcsVfsWrite table fs fd buf len).table := by
  unfold mcsVfsWrite
  split
  · exact hoffsets
  · split
    · exact hoffsets
    case h_2 slot hget =>
      obtain ⟨hfs, n, hnode, hn⟩ := htable.node hget
      dsimp only
      split
      · exact hoffsets
      · split
        case h_1 n' hnode' _ =>
          split
          · exact hoffsets
          case isFalse hfile =>
            obtain rfl : n = n' := Option.some.inj (hnode.symm.trans hnode')
            have hfileInv := h.file n (h.pos_of_file hfile) hn
            refine hoffsets.writeAt hbound hfileInv.dataCapacity slot ?_ _ len
            split
            · exact Nat.lt_of_le_of_lt hfileInv.size hbound
            · exact hoffsets slot (mcsFdGet_some hget).1
        · exact hoffsets

theorem OffsetsBelow.lseek (hoffsets : OffsetsBelow bound table) {fd offset whence : Int}
    (hseek : SeekBelow bound table fs fd offset whence) :
    OffsetsBelow bound (mcsVfsLseek table fs fd offset whence).1 := by
  unfold mcsVfsLseek
  split
  · exact hoffsets
  case h_2 slot hget =>
    dsimp only
    split
    · exact hoffsets
    case h_2 n hnode =>
      split
      · exact hoffsets
      · split
        · exact hoffsets
        case h_2 base hbase =>
          have hnext := hseek slot n base hget hnode hbase
          split
          · exact hoffsets
          · apply hoffsets.update
            dsimp only
            omega

theorem OffsetsBelow.openDescriptor (hoffsets : OffsetsBelow bound table) {node : Nat}
    (hsize : (fs.nodes node).size < bound) (flags : UInt32) :
    OffsetsBelow bound (FdModel.openDescriptor table fs node flags).1 := by
  have hzero : 0 < bound := Nat.zero_lt_of_lt hsize
  unfold FdModel.openDescriptor
  split
  · exact hoffsets
  · rcases mcsFdAlloc_cases table with hnone | ⟨fd, hfd, -, hsome⟩
    · rw [hnone]
      exact hoffsets
    · rw [hsome]
      have hslot := hoffsets.used hfd
      have hoffset : (if flags &&& mcsOAppend ≠ 0 then (fs.nodes node).size else 0) < bound := by
        split
        · exact hsize
        · exact hzero
      dsimp only
      split
      · split
        · exact hslot.update hoffset
        · exact hslot.update hzero
      · exact hslot.update hoffset

theorem OffsetsBelow.openPath {files : List ByteFile} (hoffsets : OffsetsBelow bound table)
    (hbound : fileCapacity < bound) (h : Represents fs files) (path : Option (List UInt8))
    (flags : UInt32) : OffsetsBelow bound (mcsVfsOpen table fs path flags).1 := by
  rcases path with _ | path
  · exact hoffsets
  · obtain ⟨fs', hopen, hfs'⟩ := h.openNode path (defaultFlags flags)
    have hlt := (openNode_inv h.inv (some path) (defaultFlags flags)).2.2
    rw [hopen] at hlt
    simp only [mcsVfsOpen, hopen]
    split
    · exact hoffsets
    case h_2 fs'' node hfound =>
      obtain ⟨rfl, hnode⟩ := Prod.mk.inj hfound
      have hsize := size_le_capacity hfs' (hlt node hnode)
      exact hoffsets.openDescriptor (Nat.lt_of_le_of_lt hsize hbound) _

theorem OffsetsBelow.close (hoffsets : OffsetsBelow bound table) (hbound : fileCapacity < bound)
    (fd : Int) : OffsetsBelow bound (mcsVfsClose table fd).1 := by
  unfold mcsVfsClose
  split
  · exact hoffsets
  · exact hoffsets.update (Nat.zero_lt_of_lt hbound)

theorem OffsetsBelow.dup (hoffsets : OffsetsBelow bound table) (fd : Int) :
    OffsetsBelow bound (mcsVfsDup table fd).1 := by
  unfold mcsVfsDup
  split
  · exact hoffsets
  case h_2 slot hget =>
    rcases mcsFdAlloc_cases table with hnone | ⟨newfd, hnew, -, hsome⟩
    · rw [hnone]
      exact hoffsets
    · rw [hsome]
      have hslot := hoffsets.used hnew
      exact hslot.update (hslot slot (mcsFdGet_some hget).1)

end Table

/-- The bound for a call; only seeks have to respect it. -/
def CallBelow (bound : Nat) (w : VfsWorld) : VfsCall → Prop
  | .vfsLseek i fd offset whence => SeekBelow bound (w.tables i) w.fs fd offset whence
  | _ => True

theorem offsetsBelow_step {bound : Nat} {w : VfsWorld} {files : List ByteFile}
    (hbound : fileCapacity < bound) (hinv : VfsInv w) (hfiles : Represents w.fs files)
    (h : ∀ i, OffsetsBelow bound (w.tables i)) {call : VfsCall} (hcall : CallBelow bound w call)
    (i : Nat) : OffsetsBelow bound ((w.step call).1.tables i) := by
  rcases eq_or_ne (callTable call) (some i) with htable | helse
  · cases call with
    | createFile path => cases htable
    | seedFile path data len => cases htable
    | vfsOpen j path flags =>
        cases htable
        rw [VfsWorld.step, tables_setTable]
        exact (h i).openPath hbound hfiles path flags
    | vfsRead j fd buf len =>
        cases htable
        rw [VfsWorld.step, tables_setTable]
        exact (h i).read hbound hinv.ramfs (hinv.tables i) fd buf len
    | vfsWrite j fd buf len =>
        cases htable
        rw [VfsWorld.step, tables_setTable]
        exact (h i).write hbound hinv.ramfs (hinv.tables i) fd buf len
    | vfsLseek j fd offset whence =>
        cases htable
        rw [VfsWorld.step, tables_setTable]
        exact (h i).lseek hcall
    | vfsClose j fd =>
        cases htable
        rw [VfsWorld.step, tables_setTable]
        exact (h i).close hbound fd
    | vfsDup j fd =>
        cases htable
        rw [VfsWorld.step, tables_setTable]
        exact (h i).dup fd
  · rw [step_otherTable helse]
    exact h i

end Mcsos.VfsOffsets

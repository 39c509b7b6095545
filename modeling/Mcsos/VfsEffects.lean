import Mcsos.VfsDescriptors
import Mcsos.VfsRefinement

namespace Mcsos.VfsEffects

open Mcsos.CallSystem
open Mcsos.RamfsModel
open Mcsos.FdModel
open Mcsos.VfsInvariant
open Mcsos.ByteFiles
open Mcsos.VfsNames
open Mcsos.VfsRefinement
open Mcsos.VfsDescriptors

/-- The bytes of a string before its end. -/
def cString (path : List UInt8) : List UInt8 := path.takeWhile (· ≠ 0)

theorem paddedName_unique {array : Nat → UInt8} {name name' : List UInt8}
    (h : PaddedName array name) (h' : PaddedName array name') : name = name' := by
  have hend : ∀ {l m : List UInt8}, PaddedName array l → PaddedName array m →
      l.length ≤ m.length := by
    intro l m hl hm
    by_contra hlt
    have hlen : m.length < l.length := Nat.not_le.mp hlt
    have hzero : l.getD m.length 0 = 0 := by
      rw [← hl.1, hm.1]
      exact List.getD_eq_default _ _ (Nat.le_refl _)
    rw [List.getD_eq_getElem _ _ hlen] at hzero
    exact hl.2 _ (List.getElem_mem hlen) hzero
  refine ext_getD (Nat.le_antisymm (hend h h') (hend h' h)) fun k _ => ?_
  rw [← h.1, ← h'.1]

theorem takeWhile_segment {s : List UInt8} (h : deref (s.drop (segmentLength s)) = 0) :
    s.takeWhile (· ≠ 0) = s.take (segmentLength s) := by
  induction s with
  | nil => rfl
  | cons c s ih =>
      rw [segmentLength] at h ⊢
      split at h
      case isTrue hc =>
        rw [if_pos hc, List.take_succ_cons, List.takeWhile_cons_of_pos (by simpa using hc.2)]
        exact congrArg (c :: ·) (ih h)
      case isFalse hc =>
        have hzero : c = 0 := h
        rw [if_neg hc, hzero]
        rfl

theorem cString_of_entry {path name : List UInt8} (h : resolve path = .entry name) :
    cString path = slash :: name := by
  rcases path with _ | ⟨c, s⟩
  · cases h
  · simp only [resolve, List.drop_succ_cons, List.drop_zero] at h
    split at h
    · cases h
    case isFalse hslash =>
      have hc : c = slash := not_not.mp hslash
      split at h
      · cases h
      · split at h
        · cases h
        · split at h
          · cases h
          · split at h
            case isTrue hnext =>
              cases h
              rw [cString, hc, List.takeWhile_cons_of_pos (by decide), takeWhile_segment hnext]
            · cases h

section Names

variable {fs fs' : McsRamfs} {files : List ByteFile}

theorem findFile_name (h : Represents fs files) {name : List UInt8} {n : Nat}
    (hfind : findFile files name = some n) : PaddedName (fs.nodes n).name name := by
  obtain ⟨i, hi, rfl⟩ := Option.map_eq_some_iff.mp hfind
  obtain ⟨hlt, hname, -⟩ := List.findIdx?_eq_some_iff_getElem.mp hi
  have hpadded := (h.entry i files[i] (List.getElem?_eq_getElem hlt)).name
  rwa [beq_iff_eq.mp hname] at hpadded

theorem lookup_named (h : Represents fs files) {path : List UInt8} {n : Nat} (hpos : 0 < n)
    (hlookup : mcsRamfsLookup fs (some path) = .ok n) :
    ∃ name, resolve path = .entry name ∧ PaddedName (fs.nodes n).name name := by
  rw [h.lookup path] at hlookup
  cases htarget : resolve path with
  | invalid rc =>
      rw [htarget] at hlookup
      cases hlookup
  | root =>
      rw [htarget] at hlookup
      cases hlookup
      exact absurd hpos (Nat.lt_irrefl 0)
  | entry name =>
      rw [htarget, ByteFiles.lookup] at hlookup
      rcases hfind : findFile files name with _ | m
      · rw [hfind] at hlookup
        cases hlookup
      · rw [hfind] at hlookup
        cases hlookup
        exact ⟨name, rfl, findFile_name h hfind⟩
  | below name =>
      rw [htarget, ByteFiles.lookup] at hlookup
      split at hlookup <;> cases hlookup

theorem room_iff (h : Represents fs files) :
    maxFiles ≤ files.length ↔ mcsRamfsDataBytes < fs.dataUsed + fileCapacity := by
  have hcount := h.count
  rw [h.inv.dataUsed_eq, mcsRamfsDataBytes, fileCapacity, maxFiles]
  omega

theorem createFile_cases (h : Represents fs files) (path : List UInt8) :
    (∃ rc, mcsRamfsCreateFile fs (some path) = (fs, .error rc)) ∨
      (∃ n, 0 < n ∧ n < fs.nodeCount ∧ mcsRamfsLookup fs (some path) = .ok n ∧
        mcsRamfsCreateFile fs (some path) = (fs, .ok n)) ∨
      ∃ name rc, resolve path = .entry name ∧ mcsRamfsLookup fs (some path) = .error rc ∧
        fs.dataUsed + fileCapacity ≤ mcsRamfsDataBytes ∧
        mcsRamfsCreateFile fs (some path) = (createdFs fs path, .ok fs.nodeCount) := by
  rcases hlookup : mcsRamfsLookup fs (some path) with rc | n
  · have habsent := (h.lookup path).symm.trans hlookup
    rw [h.createFile_absent habsent]
    cases htarget : resolve path with
    | invalid code => exact .inl ⟨rc, rfl⟩
    | root => exact .inl ⟨rc, rfl⟩
    | below name => exact .inl ⟨rc, rfl⟩
    | entry name =>
        dsimp only
        split
        · exact .inl ⟨.enospc, rfl⟩
        case isFalse hroom =>
          rw [room_iff h] at hroom
          exact .inr (.inr ⟨name, rc, rfl, rfl, Nat.not_lt.mp hroom, rfl⟩)
  · rw [mcsRamfsCreateFile, hlookup]
    dsimp only
    split
    · exact .inl ⟨.eisdir, rfl⟩
    case isFalse hfile =>
      refine .inr (.inl ⟨n, ?_, mcsRamfsLookup_lt h.inv.count_pos hlookup, rfl, rfl⟩)
      refine h.inv.pos_of_file fun hdir => ?_
      rw [not_not, hdir] at hfile
      cases hfile

theorem represents_createFile (h : Represents fs files) (path : Option (List UInt8)) :
    ∃ files', Represents (mcsRamfsCreateFile fs path).1 files' := by
  rcases path with _ | path
  · exact ⟨files, h⟩
  · rcases createFile_cases h path with
      ⟨rc, hcall⟩ | ⟨n, -, -, -, hcall⟩ | ⟨name, rc, htarget, -, hroom, hcall⟩
    · exact ⟨files, hcall ▸ h⟩
    · exact ⟨files, hcall ▸ h⟩
    · rw [hcall]
      refine ⟨_, h.created htarget ?_⟩
      rw [room_iff h]
      exact Nat.not_lt.mpr hroom

theorem createdFs_name {path name : List UInt8} (htarget : resolve path = .entry name) :
    PaddedName ((createdFs fs path).nodes fs.nodeCount).name name := by
  obtain ⟨hname, hlen⟩ := resolve_entry htarget
  rw [createdFs, withFile, hname]
  dsimp only
  rw [Function.update_self]
  exact paddedName_copy (by omega)

theorem createdFs_node (fs : McsRamfs) (path : List UInt8) {m : Nat} (hm : m < fs.nodeCount) :
    (createdFs fs path).nodes m = fs.nodes m :=
  Function.update_of_ne (Nat.ne_of_lt hm) _ _

theorem setSize_self {n size : Nat} (h : (fs.nodes n).size = size) : fs.setSize n size = fs := by
  rw [McsRamfs.setSize, ← h]
  exact congrArg (fun nodes => { fs with nodes := nodes }) (Function.update_eq_self n fs.nodes)

/-- The node that `open` goes on with: one that exists, or a new one. -/
def OpenedNode (fs : McsRamfs) (path : List UInt8) (flags : UInt32) (fs' : McsRamfs) (n : Nat) :
    Prop :=
  (mcsRamfsLookup fs (some path) = .ok n ∧ n < fs.nodeCount ∧ fs' = fs) ∨
    ∃ name rc, resolve path = .entry name ∧ mcsRamfsLookup fs (some path) = .error rc ∧
      flags &&& mcsOCreat ≠ 0 ∧ fs.dataUsed + fileCapacity ≤ mcsRamfsDataBytes ∧
      fs' = createdFs fs path ∧ n = fs.nodeCount

theorem openNode_cases (h : Represents fs files) (path : List UInt8) (flags : UInt32) :
    (∃ rc, openNode fs (some path) flags = (fs, .error rc)) ∨
      ∃ fs' n, OpenedNode fs path flags fs' n ∧
        openNode fs (some path) flags = (fs', .ok n) := by
  rw [openNode]
  rcases hlookup : mcsRamfsLookup fs (some path) with rc | n
  · dsimp only
    split
    · exact .inl ⟨rc, rfl⟩
    case isFalse hcreat =>
      rcases createFile_cases h path with
        ⟨code, hcall⟩ | ⟨n, -, -, hfound, -⟩ | ⟨name, code, htarget, -, hroom, hcall⟩
      · exact .inl ⟨code, hcall⟩
      · rw [hlookup] at hfound
        cases hfound
      · exact .inr ⟨_, _, .inr ⟨name, rc, htarget, hlookup, hcreat, hroom, rfl, rfl⟩, hcall⟩
  · exact .inr ⟨fs, n, .inl ⟨hlookup, mcsRamfsLookup_lt h.inv.count_pos hlookup, rfl⟩, rfl⟩

theorem OpenedNode.named (h : Represents fs files) {path : List UInt8} {flags : UInt32} {n : Nat}
    (hopened : OpenedNode fs path flags fs' n) (hpos : 0 < n) :
    ∃ name, resolve path = .entry name ∧ PaddedName (fs'.nodes n).name name := by
  rcases hopened with ⟨hlookup, -, rfl⟩ | ⟨name, -, htarget, -, -, -, rfl, rfl⟩
  · exact lookup_named h hpos hlookup
  · exact ⟨name, htarget, createdFs_name htarget⟩

end Names

theorem or_and_eq {a b c : UInt32} (h : b &&& c = 0) : (a ||| b) &&& c = a &&& c := by
  have hbits := congrArg UInt32.toBitVec h
  refine UInt32.toBitVec_inj.mp (BitVec.eq_of_getLsbD_eq fun i hi => ?_)
  have hbit := congrArg (fun v => v.getLsbD i) hbits
  simp only [UInt32.toBitVec_and, UInt32.toBitVec_or, BitVec.getLsbD_and,
    BitVec.getLsbD_or] at hbit ⊢
  rw [Bool.and_or_distrib_right, hbit]
  simp

theorem mcsCanWrite_defaultFlags (flags : UInt32) :
    mcsCanWrite (defaultFlags flags) = mcsCanWrite flags := by
  rw [defaultFlags]
  split
  · rw [mcsCanWrite, mcsCanWrite, or_and_eq (by decide), or_and_eq (by decide)]
  · rfl

theorem defaultFlags_and {flags mask : UInt32} (h : mcsORdonly &&& mask = 0) :
    defaultFlags flags &&& mask = flags &&& mask := by
  rw [defaultFlags]
  split
  · exact or_and_eq h
  · rfl

section Open

variable {fs fs' : McsRamfs} {files : List ByteFile} {table : McsFdTable}

theorem openDescriptor_fs (node : Nat) (flags : UInt32) :
    (openDescriptor table fs node flags).2.1 = fs ∨
      flags &&& mcsOTrunc ≠ 0 ∧ mcsCanWrite flags = true ∧ (fs.nodes node).type ≠ .dir ∧
        (openDescriptor table fs node flags).2.1 = fs.setSize node 0 := by
  unfold openDescriptor
  split
  · exact .inl rfl
  case isFalse hwrite =>
    rcases mcsFdAlloc_cases table with hnone | ⟨fd, -, -, hsome⟩
    · rw [hnone]
      exact .inl rfl
    · rw [hsome]
      dsimp only
      split
      case isTrue htrunc =>
        split
        · exact .inl rfl
        case isFalse hcan =>
          have hcan : mcsCanWrite flags = true := by simpa using hcan
          exact .inr ⟨htrunc, hcan, fun hdir => hwrite ⟨hdir, hcan⟩, rfl⟩
      · exact .inl rfl

theorem mcsVfsOpen_fs (h : Represents fs files) (path : List UInt8) (flags : UInt32) :
    (mcsVfsOpen table fs (some path) flags).2.1 = fs ∨
      (∃ name rc, resolve path = .entry name ∧ mcsRamfsLookup fs (some path) = .error rc ∧
        defaultFlags flags &&& mcsOCreat ≠ 0 ∧
        fs.dataUsed + fileCapacity ≤ mcsRamfsDataBytes ∧
        (mcsVfsOpen table fs (some path) flags).2.1 = createdFs fs path) ∨
      ∃ n, 0 < n ∧ n < fs.nodeCount ∧ mcsRamfsLookup fs (some path) = .ok n ∧
        defaultFlags flags &&& mcsOTrunc ≠ 0 ∧ mcsCanWrite (defaultFlags flags) = true ∧
        (mcsVfsOpen table fs (some path) flags).2.1 = fs.setSize n 0 := by
  simp only [mcsVfsOpen]
  rcases openNode_cases h path (defaultFlags flags) with ⟨rc, hopen⟩ | ⟨fs', n, hopened, hopen⟩
  · rw [hopen]
    exact .inl rfl
  · rw [hopen]
    dsimp only
    rcases hopened with ⟨hlookup, hn, rfl⟩ | ⟨name, rc, htarget, hlookup, hcreat, hroom, rfl, rfl⟩
    · rcases openDescriptor_fs n (defaultFlags flags) with hsame | ⟨htrunc, hcan, hfile, htruncated⟩
      · exact .inl hsame
      · exact .inr (.inr ⟨n, h.inv.pos_of_file hfile, hn, hlookup, htrunc, hcan, htruncated⟩)
    · refine .inr (.inl ⟨name, rc, htarget, hlookup, hcreat, hroom, ?_⟩)
      have hempty : ((createdFs fs path).nodes fs.nodeCount).size = 0 := by
        simp [createdFs, withFile]
      rcases openDescriptor_fs fs.nodeCount (defaultFlags flags) with hsame | ⟨-, -, -, htruncated⟩
      · exact hsame
      · rw [htruncated, setSize_self hempty]

theorem openDescriptor_name (node : Nat) (flags : UInt32) (m : Nat) :
    ((openDescriptor table fs node flags).2.1.nodes m).name = (fs.nodes m).name := by
  rcases openDescriptor_fs node flags with hsame | ⟨-, -, -, htruncated⟩
  · rw [hsame]
  · rw [htruncated]
    rcases eq_or_ne m node with rfl | hne
    · simp [McsRamfs.setSize]
    · simp [McsRamfs.setSize, hne]

theorem openDescriptor_table (node : Nat) (flags : UInt32) :
    (openDescriptor table fs node flags).1 = table ∨
      ∃ fd file, (openDescriptor table fs node flags).1 = Function.update table fd file ∧
        (file.used = true → file.flags = flags ∧ file.node = some node) := by
  unfold openDescriptor
  split
  · exact .inl rfl
  · rcases mcsFdAlloc_cases table with hnone | ⟨fd, -, -, hsome⟩
    · rw [hnone]
      exact .inl rfl
    · rw [hsome]
      simp only [Function.update_self, Function.update_idem]
      split
      · split
        · exact .inr ⟨fd, _, rfl, fun hused => absurd hused Bool.false_ne_true⟩
        · exact .inr ⟨fd, _, rfl, fun _ => ⟨rfl, rfl⟩⟩
      · exact .inr ⟨fd, _, rfl, fun _ => ⟨rfl, rfl⟩⟩

theorem mcsVfsOpen_descriptor (h : Represents fs files) (path : List UInt8) (flags : UInt32)
    {slot : Nat}
    (hused : ((mcsVfsOpen table fs (some path) flags).1 slot).used = true) :
    (mcsVfsOpen table fs (some path) flags).1 slot = table slot ∨
      ((mcsVfsOpen table fs (some path) flags).1 slot).flags = defaultFlags flags ∧
        ∃ n, ((mcsVfsOpen table fs (some path) flags).1 slot).node = some n ∧
          (0 < n → ∃ name, resolve path = .entry name ∧
            PaddedName ((mcsVfsOpen table fs (some path) flags).2.1.nodes n).name name) := by
  simp only [mcsVfsOpen] at hused ⊢
  rcases openNode_cases h path (defaultFlags flags) with ⟨rc, hopen⟩ | ⟨fs', n, hopened, hopen⟩
  · rw [hopen]
    exact .inl rfl
  · rw [hopen] at hused ⊢
    dsimp only at hused ⊢
    rcases openDescriptor_table n (defaultFlags flags) with hsame | ⟨fd, file, hnew, hfile⟩
    · exact .inl (congrFun hsame slot)
    · rw [hnew] at hused ⊢
      rcases eq_or_ne slot fd with rfl | hne
      · rw [Function.update_self] at hused ⊢
        refine .inr ⟨(hfile hused).1, n, (hfile hused).2, fun hpos => ?_⟩
        rw [openDescriptor_name]
        exact hopened.named h hpos
      · exact .inl (Function.update_of_ne hne _ _)

end Open

section Write

variable {fs fs' : McsRamfs} {files : List ByteFile} {table : McsFdTable}

/-- Where a write through a descriptor starts. -/
def writeStart (fs : McsRamfs) (file : McsFile) (n : Nat) : Nat :=
  if file.flags &&& mcsOAppend ≠ 0 then (fs.nodes n).size else file.offset

theorem mcsVfsWrite_file (h : RamfsInv fs) (htable : TableInv fs table) {fd : Int}
    {buf : Option (Nat → UInt8)} {len slot n : Nat} (hbuf : ¬(buf.isNone = true ∧ len ≠ 0))
    (hget : mcsFdGet table fd = some slot) (hcan : mcsCanWrite (table slot).flags = true)
    (hnode : (table slot).node = some n) (hpos : 0 < n) (hn : n < fs.nodeCount) :
    mcsVfsWrite table fs fd buf len =
      if fileCapacity < writeStart fs (table slot) n then
        ⟨Function.update table slot { table slot with offset := writeStart fs (table slot) n }, fs,
          McsStatus.einval.code, []⟩
      else if fileCapacity < writeStart fs (table slot) n + len then
        ⟨Function.update table slot { table slot with offset := writeStart fs (table slot) n }, fs,
          McsStatus.enospc.code, []⟩
      else
        ⟨Function.update table slot
            { table slot with offset := writeStart fs (table slot) n + len },
          writtenFs fs n (writeStart fs (table slot) n) (buf.getD fun _ => 0) len, len,
          dataIndices ((fs.nodes n).dataOffset + writeStart fs (table slot) n) len⟩ := by
  obtain ⟨hfs, -⟩ := htable.node hget
  have hfile : ¬(fs.nodes n).type = .dir := by
    rw [(h.file n hpos hn).type]
    simp
  have hstart : (if (table slot).flags &&& mcsOAppend ≠ 0 then
      { table slot with offset := (fs.nodes n).size } else table slot) =
        { table slot with offset := writeStart fs (table slot) n } := by
    rw [writeStart]
    split <;> rfl
  rw [mcsVfsWrite, if_neg hbuf, hget]
  dsimp only
  rw [hcan, if_neg (by decide)]
  split
  case h_1 m hm _ =>
    obtain rfl : m = n := Option.some.inj (hm.symm.trans hnode)
    rw [if_neg hfile, hstart, writeAt_eq h table slot _ hpos hn]
  case h_2 hnone => exact (hnone n hnode hfs).elim

theorem mcsVfsRead_file (h : RamfsInv fs) (htable : TableInv fs table) {fd : Int} {buf : Bool}
    {len slot n : Nat} (hbuf : ¬(buf = false ∧ len ≠ 0)) (hget : mcsFdGet table fd = some slot)
    (hcan : mcsCanRead (table slot).flags = true) (hnode : (table slot).node = some n)
    (hpos : 0 < n) (hn : n < fs.nodeCount) :
    mcsVfsRead table fs fd buf len =
      if (fs.nodes n).size ≤ (table slot).offset then ⟨table, 0, [], []⟩
      else
        ⟨Function.update table slot
            { table slot with
              offset := (table slot).offset + min len ((fs.nodes n).size - (table slot).offset) },
          ((min len ((fs.nodes n).size - (table slot).offset) : Nat) : Int),
          (dataIndices ((fs.nodes n).dataOffset + (table slot).offset)
            (min len ((fs.nodes n).size - (table slot).offset))).map fs.data,
          dataIndices ((fs.nodes n).dataOffset + (table slot).offset)
            (min len ((fs.nodes n).size - (table slot).offset))⟩ := by
  obtain ⟨hfs, -⟩ := htable.node hget
  have hfile : ¬(fs.nodes n).type = .dir := by
    rw [(h.file n hpos hn).type]
    simp
  rw [mcsVfsRead, if_neg hbuf, hget]
  dsimp only
  rw [hcan, if_neg (by decide)]
  split
  case h_1 m hm _ =>
    obtain rfl : m = n := Option.some.inj (hm.symm.trans hnode)
    rw [if_neg hfile]
  case h_2 hnone => exact (hnone n hnode hfs).elim

theorem mcsVfsLseek_file (h : RamfsInv fs) {fd offset whence base : Int} {slot n : Nat}
    (hget : mcsFdGet table fd = some slot) (hnode : (table slot).node = some n) (hpos : 0 < n)
    (hn : n < fs.nodeCount) (hbase : seekBase (table slot) (fs.nodes n).size whence = some base) :
    mcsVfsLseek table fs fd offset whence =
      if Int.bmod (base + offset) (2 ^ 64) < 0 then (table, McsStatus.einval.code)
      else
        (Function.update table slot
            { table slot with offset := (Int.bmod (base + offset) (2 ^ 64)).toNat },
          Int.bmod (Int.bmod (base + offset) (2 ^ 64)) (2 ^ 32)) := by
  have hfile : ¬(fs.nodes n).type = .dir := by
    rw [(h.file n hpos hn).type]
    simp
  rw [mcsVfsLseek, hget]
  dsimp only
  rw [hnode]
  dsimp only
  rw [if_neg hfile, hbase, ← hnode]

/-- A write gets to the file that the descriptor is open on. -/
structure WritesFile (table : McsFdTable) (fs : McsRamfs) (fd : Int) (buf : Option (Nat → UInt8))
    (len slot n : Nat) : Prop where
  buffer : ¬(buf.isNone = true ∧ len ≠ 0)
  slot_eq : mcsFdGet table fd = some slot
  canWrite : mcsCanWrite (table slot).flags = true
  node_eq : (table slot).node = some n
  pos : 0 < n
  lt : n < fs.nodeCount

theorem mcsVfsWrite_cases (h : RamfsInv fs) (htable : TableInv fs table) (fd : Int)
    (buf : Option (Nat → UInt8)) (len : Nat) :
    (∃ rc : McsStatus, mcsVfsWrite table fs fd buf len = ⟨table, fs, rc.code, []⟩) ∨
      ∃ slot n, WritesFile table fs fd buf len slot n := by
  by_cases hbuf : buf.isNone = true ∧ len ≠ 0
  · rw [mcsVfsWrite, if_pos hbuf]
    exact .inl ⟨.einval, rfl⟩
  · rcases hget : mcsFdGet table fd with _ | slot
    · rw [mcsVfsWrite, if_neg hbuf, hget]
      exact .inl ⟨.ebadf, rfl⟩
    · obtain ⟨hfs, n, hnode, hn⟩ := htable.node hget
      rcases hcan : mcsCanWrite (table slot).flags
      · rw [mcsVfsWrite, if_neg hbuf, hget]
        dsimp only
        rw [if_pos hcan]
        exact .inl ⟨.eacces, rfl⟩
      · rcases Nat.eq_zero_or_pos n with rfl | hpos
        · rw [mcsVfsWrite, if_neg hbuf, hget]
          dsimp only
          rw [hcan, if_neg (by decide), hnode, hfs]
          dsimp only
          rw [if_pos h.root]
          exact .inl ⟨.eisdir, rfl⟩
        · exact .inr ⟨slot, n, hbuf, hget, hcan, hnode, hpos, hn⟩

theorem mcsVfsWrite_fs (h : RamfsInv fs) (htable : TableInv fs table) (fd : Int)
    (buf : Option (Nat → UInt8)) (len : Nat) :
    (mcsVfsWrite table fs fd buf len).fs = fs ∨
      ∃ slot n, mcsFdGet table fd = some slot ∧ mcsCanWrite (table slot).flags = true ∧
        (table slot).node = some n ∧ 0 < n ∧ n < fs.nodeCount ∧
        writeStart fs (table slot) n + len ≤ fileCapacity ∧
        (mcsVfsWrite table fs fd buf len).fs =
          writtenFs fs n (writeStart fs (table slot) n) (buf.getD fun _ => 0) len := by
  rcases mcsVfsWrite_cases h htable fd buf len with
    ⟨rc, hfailed⟩ | ⟨slot, n, hbuf, hget, hcan, hnode, hpos, hn⟩
  · rw [hfailed]
    exact .inl rfl
  · rw [mcsVfsWrite_file h htable hbuf hget hcan hnode hpos hn]
    split
    · exact .inl rfl
    · split
      · exact .inl rfl
      case isFalse hfits =>
        exact .inr ⟨slot, n, hget, hcan, hnode, hpos, hn, Nat.not_lt.mp hfits, rfl⟩

/-- The file system after a file was seeded. -/
def seededFs (fs : McsRamfs) (n : Nat) (src : Nat → UInt8) (len : Nat) : McsRamfs :=
  McsRamfs.setSize { fs with data := copyBytes fs.data (fs.nodes n).dataOffset src len } n len

theorem represents_seeded (h : Represents fs files) {n len : Nat} (hpos : 0 < n)
    (hn : n < fs.nodeCount) (hfits : len ≤ fileCapacity) (src : Nat → UInt8) :
    Represents (seededFs fs n src len)
      (setContent files n (fileBytes (seededFs fs n src len) n)) := by
  have hother : ∀ m, m ≠ n → (seededFs fs n src len).nodes m = fs.nodes m :=
    fun m hne => Function.update_of_ne hne _ _
  refine represents_setContent h hpos ((h.inv.setData _).setSize hpos hfits) rfl ?_ ?_
  · intro m
    rcases eq_or_ne m n with rfl | hne
    · simp [seededFs, McsRamfs.setSize]
    · exact congrArg McsVnode.name (hother m hne)
  · intro m hm hne
    refine ⟨congrArg McsVnode.size (hother m hne), ?_⟩
    refine fileBytes_outside h.inv hpos hn hm hne h.root_size (hother m hne) fun k hk => ?_
    exact if_neg (by omega)

theorem mcsRamfsSeedFile_fs (h : Represents fs files) (path : Option (List UInt8))
    (data : Option (Nat → UInt8)) (len : Nat) :
    (mcsRamfsSeedFile fs path data len).1 = (mcsRamfsCreateFile fs path).1 ∨
      (mcsRamfsSeedFile fs path data len).1 = fs ∨
      ∃ n, (mcsRamfsCreateFile fs path).2 = .ok n ∧ 0 < n ∧
        n < (mcsRamfsCreateFile fs path).1.nodeCount ∧ len ≤ fileCapacity ∧
        (mcsRamfsSeedFile fs path data len).1 =
          seededFs (mcsRamfsCreateFile fs path).1 n (data.getD fun _ => 0) len := by
  obtain ⟨hinv, -, hnode⟩ := h.inv.createFile path
  unfold mcsRamfsSeedFile
  split
  · exact .inr (.inl rfl)
  · generalize mcsRamfsCreateFile fs path = created at hinv hnode
    obtain ⟨fs', rc | n⟩ := created
    · exact .inl rfl
    · obtain ⟨hpos, hn⟩ := hnode n rfl
      dsimp only
      split
      · exact .inl rfl
      case isFalse hfits =>
        rw [(hinv.file n hpos hn).dataCapacity] at hfits
        exact .inr (.inr ⟨n, rfl, hpos, hn, Nat.not_lt.mp hfits, rfl⟩)

end Write

/-- The rights and the node of the slot are those of one that was in use before. -/
def Inherits (table table' : McsFdTable) (slot : Nat) : Prop :=
  ∃ old, old < mcsMaxOpenFiles ∧ (table old).used = true ∧
    (table' slot).flags = (table old).flags ∧ (table' slot).node = (table old).node

section Inherit

variable {table table' : McsFdTable} {slot : Nat} {fd : Int}

theorem inherits_update {target : Nat} {file : McsFile} (hslot : slot < mcsMaxOpenFiles)
    (hused : (Function.update table target file slot).used = true)
    (hfile : file.used = true → ∃ old, old < mcsMaxOpenFiles ∧ (table old).used = true ∧
      file.flags = (table old).flags ∧ file.node = (table old).node) :
    Inherits table (Function.update table target file) slot := by
  unfold Inherits
  rcases eq_or_ne slot target with rfl | hne
  · rw [Function.update_self] at hused ⊢
    exact hfile hused
  · rw [Function.update_of_ne hne] at hused ⊢
    exact ⟨slot, hslot, hused, rfl, rfl⟩

theorem moved_inherits (h : Moved table fd table')
    (hslot : slot < mcsMaxOpenFiles) (hused : (table' slot).used = true) :
    Inherits table table' slot := by
  rcases h with rfl | ⟨target, offset, hget, rfl⟩
  · exact ⟨slot, hslot, hused, rfl, rfl⟩
  · obtain ⟨htarget, hopen⟩ := mcsFdGet_some hget
    exact inherits_update hslot hused fun _ => ⟨target, htarget, hopen, rfl, rfl⟩

theorem mcsVfsClose_inherits (hslot : slot < mcsMaxOpenFiles)
    (hused : ((mcsVfsClose table fd).1 slot).used = true) :
    Inherits table (mcsVfsClose table fd).1 slot := by
  unfold mcsVfsClose at hused ⊢
  rcases hget : mcsFdGet table fd with _ | target
  · rw [hget] at hused
    exact ⟨slot, hslot, hused, rfl, rfl⟩
  · rw [hget] at hused
    exact inherits_update hslot hused fun hclosed => absurd hclosed Bool.false_ne_true

theorem mcsVfsDup_inherits (hslot : slot < mcsMaxOpenFiles)
    (hused : ((mcsVfsDup table fd).1 slot).used = true) :
    Inherits table (mcsVfsDup table fd).1 slot := by
  unfold mcsVfsDup at hused ⊢
  rcases hget : mcsFdGet table fd with _ | source
  · rw [hget] at hused
    exact ⟨slot, hslot, hused, rfl, rfl⟩
  · rw [hget] at hused
    dsimp only at hused ⊢
    obtain ⟨hsource, hopen⟩ := mcsFdGet_some hget
    rcases mcsFdAlloc_cases table with hnone | ⟨newfd, -, hfree, hsome⟩
    · rw [hnone] at hused ⊢
      exact ⟨slot, hslot, hused, rfl, rfl⟩
    · have hne : source ≠ newfd := by
        rintro rfl
        rw [hopen] at hfree
        cases hfree
      rw [hsome] at hused ⊢
      simp only [Function.update_self, Function.update_idem, Function.update_of_ne hne] at hused ⊢
      exact inherits_update hslot hused fun _ => ⟨source, hsource, hopen, rfl, rfl⟩

end Inherit

section Step

variable {w : VfsWorld} {files : List ByteFile}

/-- Every state of the file system represents byte files, whatever the calls do. -/
theorem represents_step (hinv : VfsInv w) (h : Represents w.fs files) (call : VfsCall) :
    ∃ files', Represents (w.step call).1.fs files' := by
  cases call with
  | createFile path => exact represents_createFile h path
  | seedFile path data len =>
      obtain ⟨files', hcreated⟩ := represents_createFile h path
      change ∃ files', Represents (mcsRamfsSeedFile w.fs path data len).1 files'
      rcases mcsRamfsSeedFile_fs h path data len with hfs | hfs | ⟨n, -, hpos, hn, hfits, hfs⟩
      · exact ⟨files', hfs ▸ hcreated⟩
      · exact ⟨files, hfs.symm ▸ h⟩
      · rw [hfs]
        exact ⟨_, represents_seeded hcreated hpos hn hfits _⟩
  | vfsOpen i path flags =>
      obtain ⟨files', hopened, -⟩ := openPath_eq h (w.tables i) path flags
      exact ⟨files', hopened⟩
  | vfsRead i fd buf len => exact ⟨files, h⟩
  | vfsWrite i fd buf len =>
      change ∃ files', Represents (mcsVfsWrite (w.tables i) w.fs fd buf len).fs files'
      rcases mcsVfsWrite_fs hinv.ramfs (hinv.tables i) fd buf len with
        hfs | ⟨slot, n, -, -, -, hpos, hn, hfits, hfs⟩
      · exact ⟨files, hfs.symm ▸ h⟩
      · rw [hfs]
        exact ⟨_, represents_rewritten h hpos hn hfits _⟩
  | vfsLseek i fd offset whence => exact ⟨files, h⟩
  | vfsClose i fd => exact ⟨files, h⟩
  | vfsDup i fd => exact ⟨files, h⟩

/-- The invariant of every reachable state. -/
structure Sound (w : VfsWorld) : Prop where
  inv : VfsInv w
  represents : ∃ files, Represents w.fs files

theorem sound_start (fs : McsRamfs) (tables : Nat → McsFdTable) : Sound (startWorld fs tables) :=
  ⟨vfsInv_startWorld fs tables, _, (simulates_start fs tables).files⟩

theorem Sound.step (h : Sound w) (call : VfsCall) : Sound (w.step call).1 := by
  obtain ⟨files, hfiles⟩ := h.represents
  exact ⟨vfsInv_step h.inv call, represents_step h.inv hfiles call⟩

theorem sound_run {fs : McsRamfs} {tables : Nat → McsFdTable}
    {trace : List (VfsCall × VfsResult)}
    (hrun : Run callSystem (startWorld fs tables) trace w) : Sound w :=
  hrun.invariant_total (fun _ _ => rfl) Sound (fun _ call hw _ => hw.step call)
    (sound_start fs tables)

theorem step_descriptor (h : Represents w.fs files) (call : VfsCall) (i : Nat) {slot : Nat}
    (hslot : slot < mcsMaxOpenFiles) (hused : ((w.step call).1.tables i slot).used = true) :
    Inherits (w.tables i) ((w.step call).1.tables i) slot ∨
      ∃ path flags n, call = .vfsOpen i (some path) flags ∧
        ((w.step call).1.tables i slot).flags = defaultFlags flags ∧
        ((w.step call).1.tables i slot).node = some n ∧
        (0 < n → ∃ name, resolve path = .entry name ∧
          PaddedName ((w.step call).1.fs.nodes n).name name) := by
  rcases eq_or_ne (callTable call) (some i) with htable | helse
  · cases call with
    | createFile path => cases htable
    | seedFile path data len => cases htable
    | vfsOpen j path flags =>
        cases htable
        rw [VfsWorld.step, tables_setTable] at hused ⊢
        rcases path with _ | path
        · exact .inl ⟨slot, hslot, hused, rfl, rfl⟩
        · rcases mcsVfsOpen_descriptor h path flags hused with
            hsame | ⟨hflags, n, hnode, hname⟩
          · rw [hsame] at hused
            exact .inl ⟨slot, hslot, hused, by rw [hsame], by rw [hsame]⟩
          · exact .inr ⟨path, flags, n, rfl, hflags, hnode, hname⟩
    | vfsRead j fd buf len =>
        cases htable
        rw [VfsWorld.step, tables_setTable] at hused ⊢
        exact .inl (moved_inherits (mcsVfsRead_moved fd buf len) hslot hused)
    | vfsWrite j fd buf len =>
        cases htable
        rw [VfsWorld.step, tables_setTable] at hused ⊢
        exact .inl (moved_inherits (mcsVfsWrite_moved fd buf len) hslot hused)
    | vfsLseek j fd offset whence =>
        cases htable
        rw [VfsWorld.step, tables_setTable] at hused ⊢
        exact .inl (moved_inherits (mcsVfsLseek_moved fd offset whence) hslot hused)
    | vfsClose j fd =>
        cases htable
        rw [VfsWorld.step, tables_setTable] at hused ⊢
        exact .inl (mcsVfsClose_inherits hslot hused)
    | vfsDup j fd =>
        cases htable
        rw [VfsWorld.step, tables_setTable] at hused ⊢
        exact .inl (mcsVfsDup_inherits hslot hused)
  · rw [step_otherTable helse] at hused ⊢
    exact .inl ⟨slot, hslot, hused, rfl, rfl⟩

end Step

/-- The node and the bytes of a file are the same. -/
structure SameFile (fs fs' : McsRamfs) (n : Nat) : Prop where
  node : fs'.nodes n = fs.nodes n
  bytes : fileBytes fs' n = fileBytes fs n

section File

variable {fs fs' fs'' : McsRamfs} {files : List ByteFile} {n m : Nat}

theorem SameFile.refl (fs : McsRamfs) (n : Nat) : SameFile fs fs n := ⟨rfl, rfl⟩

theorem SameFile.trans (h : SameFile fs fs' n) (h' : SameFile fs' fs'' n) : SameFile fs fs'' n :=
  ⟨h'.node.trans h.node, h'.bytes.trans h.bytes⟩

theorem sameFile_of_node (hnode : fs'.nodes n = fs.nodes n) (hdata : fs'.data = fs.data) :
    SameFile fs fs' n :=
  ⟨hnode, by rw [fileBytes, fileBytes, hnode, hdata]⟩

theorem sameFile_created (path : List UInt8) (hn : n < fs.nodeCount) :
    SameFile fs (createdFs fs path) n :=
  sameFile_of_node (createdFs_node fs path hn) rfl

theorem sameFile_truncated (hne : n ≠ m) : SameFile fs (fs.setSize m 0) n :=
  sameFile_of_node (Function.update_of_ne hne _ _) rfl

theorem sameFile_written (h : Represents fs files) {offset len : Nat} (hm : 0 < m)
    (hm' : m < fs.nodeCount) (hn : n < fs.nodeCount) (hne : n ≠ m)
    (hfits : offset + len ≤ fileCapacity) (buf : Nat → UInt8) :
    SameFile fs (writtenFs fs m offset buf len) n := by
  refine ⟨?_, fileBytes_written_of_ne h.inv hm hm' hn hne h.root_size hfits buf⟩
  rw [writtenFs_node, if_neg hne]

theorem sameFile_seeded (h : Represents fs files) {len : Nat} (hm : 0 < m)
    (hm' : m < fs.nodeCount) (hn : n < fs.nodeCount) (hne : n ≠ m) (hfits : len ≤ fileCapacity)
    (src : Nat → UInt8) : SameFile fs (seededFs fs m src len) n := by
  have hnode : (seededFs fs m src len).nodes n = fs.nodes n := Function.update_of_ne hne _ _
  refine ⟨hnode, fileBytes_outside h.inv hm hm' hn hne h.root_size hnode fun k hk => ?_⟩
  exact if_neg (by omega)

theorem sameFile_createFile (h : Represents fs files) (path : Option (List UInt8))
    (hn : n < fs.nodeCount) : SameFile fs (mcsRamfsCreateFile fs path).1 n := by
  rcases path with _ | path
  · exact .refl fs n
  · rcases createFile_cases h path with
      ⟨rc, hcall⟩ | ⟨k, -, -, -, hcall⟩ | ⟨name, rc, -, -, -, hcall⟩
    · rw [hcall]
      exact .refl fs n
    · rw [hcall]
      exact .refl fs n
    · rw [hcall]
      exact sameFile_created path hn

theorem createFile_found (h : Represents fs files) {path : Option (List UInt8)}
    (hn : n < fs.nodeCount) (hnode : (mcsRamfsCreateFile fs path).2 = .ok n) :
    ∃ p, path = some p ∧ mcsRamfsLookup fs (some p) = .ok n ∧
      (mcsRamfsCreateFile fs path).1 = fs := by
  rcases path with _ | path
  · cases hnode
  · rcases createFile_cases h path with
      ⟨rc, hcall⟩ | ⟨k, -, -, hlookup, hcall⟩ | ⟨name, rc, -, -, -, hcall⟩
    · rw [hcall] at hnode
      cases hnode
    · rw [hcall] at hnode ⊢
      cases hnode
      exact ⟨path, rfl, hlookup, rfl⟩
    · rw [hcall] at hnode
      cases hnode
      exact absurd hn (Nat.lt_irrefl _)

end File

section FileStep

variable {w : VfsWorld} {files : List ByteFile} {n : Nat}

/-- The calls that can change an existing file. -/
inductive FileChange (w : VfsWorld) (n : Nat) : VfsCall → McsRamfs → Prop
  | truncate {i path flags} (hlookup : mcsRamfsLookup w.fs (some path) = .ok n)
      (htrunc : defaultFlags flags &&& mcsOTrunc ≠ 0)
      (hcan : mcsCanWrite (defaultFlags flags) = true) :
      FileChange w n (.vfsOpen i (some path) flags) (w.fs.setSize n 0)
  | write {i fd buf len slot} (hget : mcsFdGet (w.tables i) fd = some slot)
      (hcan : mcsCanWrite (w.tables i slot).flags = true)
      (hnode : (w.tables i slot).node = some n)
      (hfits : writeStart w.fs (w.tables i slot) n + len ≤ fileCapacity) :
      FileChange w n (.vfsWrite i fd buf len)
        (writtenFs w.fs n (writeStart w.fs (w.tables i slot) n) (buf.getD fun _ => 0) len)
  | seed {path data len} (hlookup : mcsRamfsLookup w.fs (some path) = .ok n)
      (hfits : len ≤ fileCapacity) :
      FileChange w n (.seedFile (some path) data len)
        (seededFs w.fs n (data.getD fun _ => 0) len)

theorem step_file (hinv : VfsInv w) (h : Represents w.fs files) (hn : n < w.fs.nodeCount)
    (call : VfsCall) :
    SameFile w.fs (w.step call).1.fs n ∨ FileChange w n call (w.step call).1.fs := by
  cases call with
  | createFile path => exact .inl (sameFile_createFile h path hn)
  | seedFile path data len =>
      have hsame := sameFile_createFile h path hn
      change SameFile w.fs (mcsRamfsSeedFile w.fs path data len).1 n ∨
        FileChange w n _ (mcsRamfsSeedFile w.fs path data len).1
      rcases mcsRamfsSeedFile_fs h path data len with hfs | hfs | ⟨m, hnode, hm, hm', hfits, hfs⟩
      · rw [hfs]
        exact .inl hsame
      · rw [hfs]
        exact .inl (.refl _ n)
      · obtain ⟨files', hcreated⟩ := represents_createFile h path
        have hn' := Nat.lt_of_lt_of_le hn (h.inv.createFile path).2.1
        rw [hfs]
        rcases eq_or_ne n m with rfl | hne
        · obtain ⟨p, rfl, hlookup, hkept⟩ := createFile_found h hn hnode
          rw [hkept]
          exact .inr (.seed hlookup hfits)
        · exact .inl (hsame.trans (sameFile_seeded hcreated hm hm' hn' hne hfits _))
  | vfsOpen i path flags =>
      rcases path with _ | path
      · exact .inl (.refl _ n)
      · change SameFile w.fs (mcsVfsOpen (w.tables i) w.fs (some path) flags).2.1 n ∨
          FileChange w n _ (mcsVfsOpen (w.tables i) w.fs (some path) flags).2.1
        rcases mcsVfsOpen_fs h path flags with
          hfs | ⟨name, rc, -, -, -, -, hfs⟩ | ⟨m, hm, hm', hlookup, htrunc, hcan, hfs⟩
        · rw [hfs]
          exact .inl (.refl _ n)
        · rw [hfs]
          exact .inl (sameFile_created path hn)
        · rw [hfs]
          rcases eq_or_ne n m with rfl | hne
          · exact .inr (.truncate hlookup htrunc hcan)
          · exact .inl (sameFile_truncated hne)
  | vfsRead i fd buf len => exact .inl (.refl _ n)
  | vfsWrite i fd buf len =>
      change SameFile w.fs (mcsVfsWrite (w.tables i) w.fs fd buf len).fs n ∨
        FileChange w n _ (mcsVfsWrite (w.tables i) w.fs fd buf len).fs
      rcases mcsVfsWrite_fs hinv.ramfs (hinv.tables i) fd buf len with
        hfs | ⟨slot, m, hget, hcan, hnode, hm, hm', hfits, hfs⟩
      · rw [hfs]
        exact .inl (.refl _ n)
      · rw [hfs]
        rcases eq_or_ne n m with rfl | hne
        · exact .inr (.write hget hcan hnode hfits)
        · exact .inl (sameFile_written h hm hm' hn hne hfits _)
  | vfsLseek i fd offset whence => exact .inl (.refl _ n)
  | vfsClose i fd => exact .inl (.refl _ n)
  | vfsDup i fd => exact .inl (.refl _ n)

theorem FileChange.name {call : VfsCall} {fs' : McsRamfs} (h : FileChange w n call fs') :
    (fs'.nodes n).name = (w.fs.nodes n).name := by
  cases h with
  | truncate => simp [McsRamfs.setSize]
  | write => rw [writtenFs_node, if_pos rfl]
  | seed => simp [seededFs, McsRamfs.setSize]

theorem step_name (hinv : VfsInv w) (h : Represents w.fs files) (hn : n < w.fs.nodeCount)
    (call : VfsCall) :
    ((w.step call).1.fs.nodes n).name = (w.fs.nodes n).name := by
  rcases step_file hinv h hn call with hsame | hchange
  · rw [hsame.node]
  · exact hchange.name

theorem step_nodeCount (hinv : VfsInv w) (call : VfsCall) :
    w.fs.nodeCount ≤ (w.step call).1.fs.nodeCount := by
  cases call with
  | createFile path => exact (hinv.ramfs.createFile path).2.1
  | seedFile path data len => exact (hinv.ramfs.seedFile path data len).2
  | vfsOpen i path flags =>
      rcases path with _ | path
      · exact Nat.le_refl _
      · obtain ⟨hramfs, hcount, hnode⟩ := openNode_inv hinv.ramfs (some path) (defaultFlags flags)
        simp only [VfsWorld.step, mcsVfsOpen]
        generalize openNode w.fs (some path) (defaultFlags flags) = found at hramfs hcount hnode
        obtain ⟨fs', rc | node⟩ := found
        · exact hcount
        · obtain ⟨-, hsame, -⟩ := openDescriptor_inv hramfs ((hinv.tables i).mono hcount)
            (hnode node rfl) (defaultFlags flags)
          exact hcount.trans hsame.symm.le
  | vfsRead i fd buf len => exact Nat.le_refl _
  | vfsWrite i fd buf len =>
      exact (mcsVfsWrite_inv hinv.ramfs (hinv.tables i) fd buf len).2.1.symm.le
  | vfsLseek i fd offset whence => exact Nat.le_refl _
  | vfsClose i fd => exact Nat.le_refl _
  | vfsDup i fd => exact Nat.le_refl _

theorem step_lookup (hsound : Sound w) {path : List UInt8} (hpos : 0 < n)
    (hlookup : mcsRamfsLookup w.fs (some path) = .ok n) (call : VfsCall) :
    mcsRamfsLookup (w.step call).1.fs (some path) = .ok n := by
  obtain ⟨files, h⟩ := hsound.represents
  obtain ⟨files', h'⟩ := (hsound.step call).represents
  obtain ⟨name, htarget, -⟩ := lookup_named h hpos hlookup
  have hcount := step_nodeCount hsound.inv call
  rw [h.count, h'.count] at hcount
  have hnames : ∀ (i : Nat) (hi : i < files.length) (hi' : i < files'.length),
      files'[i].name = files[i].name := by
    intro i hi hi'
    have hold := (h.entry i files[i] (List.getElem?_eq_getElem hi)).name
    have hnew := (h'.entry i files'[i] (List.getElem?_eq_getElem hi')).name
    rw [step_name hsound.inv h (by rw [h.count]; omega)] at hnew
    exact paddedName_unique hnew hold
  rw [h.lookup, htarget, ByteFiles.lookup] at hlookup
  rw [h'.lookup, htarget, ByteFiles.lookup]
  rcases hfind : findFile files name with _ | m
  · rw [hfind] at hlookup
    cases hlookup
  · rw [hfind] at hlookup
    cases hlookup
    obtain ⟨i, hi, rfl⟩ := Option.map_eq_some_iff.mp hfind
    obtain ⟨hlt, hname, hbefore⟩ := List.findIdx?_eq_some_iff_getElem.mp hi
    have hi' : files'.findIdx? (fun file => file.name == name) = some i := by
      refine List.findIdx?_eq_some_iff_getElem.mpr ⟨by omega, ?_, fun j hj => ?_⟩
      · rw [hnames i hlt (by omega)]
        exact hname
      · rw [hnames j (by omega) (by omega)]
        exact hbefore j hj
    rw [findFile, hi']
    rfl

end FileStep

end Mcsos.VfsEffects

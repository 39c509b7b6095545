import Mcsos.VfsEffects

/-!
Calls that fail after they have made a file: `open` looks for a descriptor and checks the
right to truncate after the file exists, and `mcs_ramfs_seed_file` checks the length after
it.
-/

namespace Mcsos.VfsFailures

open Mcsos.CallSystem
open Mcsos.RamfsModel
open Mcsos.FdModel
open Mcsos.VfsInvariant
open Mcsos.ByteFiles
open Mcsos.VfsNames
open Mcsos.VfsRefinement
open Mcsos.VfsDescriptors
open Mcsos.VfsEffects

/-- The same files, with the same names, sizes and bytes, in the same space. -/
structure SameFiles (fs fs' : McsRamfs) : Prop where
  nodeCount : fs'.nodeCount = fs.nodeCount
  dataUsed : fs'.dataUsed = fs.dataUsed
  file : ∀ n, SameFile fs fs' n

theorem SameFiles.refl (fs : McsRamfs) : SameFiles fs fs := ⟨rfl, rfl, SameFile.refl fs⟩

/-- The calls that can make a file. -/
def makesFiles : VfsCall → Bool
  | .createFile _ => true
  | .seedFile _ _ _ => true
  | .vfsOpen _ _ _ => true
  | _ => false

/-- The path names an entry of the root directory that does not exist, and there is room
for it. -/
def Missing (fs : McsRamfs) (path : Option (List UInt8)) : Prop :=
  ∃ p name, path = some p ∧ resolve p = .entry name ∧
    mcsRamfsLookup fs (some p) = .error .enoent ∧
    fs.dataUsed + fileCapacity ≤ mcsRamfsDataBytes

/-- All descriptors of the table are in use. -/
def TableFull (table : McsFdTable) : Prop := ∀ fd < mcsMaxOpenFiles, (table fd).used = true

/-- The calls that make a file and then fail. -/
def LeavesFile (w : VfsWorld) : VfsCall → Prop
  | .vfsOpen i path flags =>
      Missing w.fs path ∧ flags &&& mcsOCreat ≠ 0 ∧
        (TableFull (w.tables i) ∨ flags &&& mcsOTrunc ≠ 0 ∧ mcsCanWrite flags = false)
  | .seedFile path data len => Missing w.fs path ∧ data.isSome = true ∧ fileCapacity < len
  | _ => False

section Calls

variable {fs : McsRamfs} {files : List ByteFile} {table : McsFdTable}

theorem lookup_entry (h : Represents fs files) {path name : List UInt8} {rc : McsStatus}
    (htarget : resolve path = .entry name) (hlookup : mcsRamfsLookup fs (some path) = .error rc) :
    rc = .enoent := by
  rw [h.lookup, htarget, ByteFiles.lookup] at hlookup
  split at hlookup
  · cases hlookup
  · cases hlookup
    rfl

theorem createFile_missing (h : Represents fs files) {path : List UInt8}
    (hmissing : Missing fs (some path)) :
    mcsRamfsCreateFile fs (some path) = (createdFs fs path, .ok fs.nodeCount) := by
  obtain ⟨p, name, hp, htarget, hlookup, hroom⟩ := hmissing
  obtain rfl : path = p := Option.some.inj hp
  rw [h.createFile_absent ((h.lookup path).symm.trans hlookup), htarget]
  dsimp only
  rw [if_neg]
  rw [room_iff h]
  exact Nat.not_lt.mpr hroom

theorem tableFull_iff : TableFull table ↔ mcsFdAlloc table = (table, .error .enfile) := by
  rcases mcsFdAlloc_least table with ⟨hnone, hfull⟩ | ⟨fd, -, hfd, hfree, hsome⟩
  · exact ⟨fun _ => hnone, fun _ fd hfd => (mem_usedSet_openFiles.mp (hfull fd hfd)).2⟩
  · constructor
    · intro hfull
      exact absurd ((hfull fd hfd).symm.trans hfree) Bool.noConfusion
    · intro hnone
      have hresult := congrArg Prod.snd (hsome.symm.trans hnone)
      cases hresult

theorem openDescriptor_failed_iff {node : Nat} (hfile : (fs.nodes node).type ≠ .dir)
    (flags : UInt32) :
    (openDescriptor table fs node flags).2.2 < 0 ↔
      TableFull table ∨ flags &&& mcsOTrunc ≠ 0 ∧ mcsCanWrite flags = false := by
  have hwrite : ¬((fs.nodes node).type = .dir ∧ mcsCanWrite flags = true) := fun h => hfile h.1
  have hopened : ∀ fd : Nat, ¬(fd : Int) < 0 := fun fd => Int.not_lt.mpr (Int.natCast_nonneg fd)
  rw [tableFull_iff, openDescriptor, if_neg hwrite]
  rcases mcsFdAlloc_cases table with hnone | ⟨fd, -, -, hsome⟩
  · rw [hnone]
    exact ⟨fun _ => .inl rfl, fun _ => code_neg .enfile⟩
  · have hslot : ¬mcsFdAlloc table = (table, .error .enfile) := by
      intro hnone
      have hresult := congrArg Prod.snd (hsome.symm.trans hnone)
      cases hresult
    rw [or_iff_right hslot, hsome]
    dsimp only
    split
    case isTrue htrunc =>
      split
      case isTrue hcan => exact ⟨fun _ => ⟨htrunc, hcan⟩, fun _ => code_neg .eacces⟩
      case isFalse hcan => exact ⟨fun h => absurd h (hopened fd), fun h => absurd h.2 hcan⟩
    case isFalse htrunc => exact ⟨fun h => absurd h (hopened fd), fun h => absurd h.1 htrunc⟩

theorem openDescriptor_failed {node : Nat} {flags : UInt32}
    (h : (openDescriptor table fs node flags).2.2 < 0) :
    (openDescriptor table fs node flags).2.1 = fs := by
  unfold openDescriptor at h ⊢
  split
  · rfl
  case isFalse hwrite =>
    rw [if_neg hwrite] at h
    rcases mcsFdAlloc_cases table with hnone | ⟨fd, -, -, hsome⟩
    · rw [hnone]
    · rw [hsome] at h ⊢
      dsimp only at h ⊢
      split
      case isTrue htrunc =>
        rw [if_pos htrunc] at h
        split
        · rfl
        case isFalse hcan =>
          rw [if_neg hcan] at h
          exact absurd h (Int.not_lt.mpr (Int.natCast_nonneg fd))
      · rfl

end Calls

section Steps

variable {w : VfsWorld} {files : List ByteFile}

theorem not_sameFiles_created (fs : McsRamfs) (path : List UInt8) :
    ¬SameFiles fs (createdFs fs path) := fun h => absurd h.nodeCount (Nat.succ_ne_self _)

theorem LeavesFile.not_same (h : Represents w.fs files) {call : VfsCall}
    (hleaves : LeavesFile w call) :
    (w.step call).2.ret < 0 ∧ ¬SameFiles w.fs (w.step call).1.fs := by
  cases call with
  | vfsOpen i path flags =>
      obtain ⟨hmissing, hcreat, hfail⟩ := hleaves
      obtain ⟨p, name, rfl, htarget, hlookup, hroom⟩ := id hmissing
      have hnode : openNode w.fs (some p) (defaultFlags flags) =
          (createdFs w.fs p, .ok w.fs.nodeCount) := by
        rw [openNode, hlookup]
        dsimp only
        rw [defaultFlags_and (by decide), if_neg hcreat]
        exact createFile_missing h hmissing
      have hopen : mcsVfsOpen (w.tables i) w.fs (some p) flags =
          openDescriptor (w.tables i) (createdFs w.fs p) w.fs.nodeCount (defaultFlags flags) := by
        simp only [mcsVfsOpen, hnode]
      have hret : (openDescriptor (w.tables i) (createdFs w.fs p) w.fs.nodeCount
          (defaultFlags flags)).2.2 < 0 := by
        rw [openDescriptor_failed_iff (by simp [createdFs, withFile]),
          defaultFlags_and (by decide), mcsCanWrite_defaultFlags]
        exact hfail
      simp only [VfsWorld.step, hopen]
      rw [openDescriptor_failed hret]
      exact ⟨hret, not_sameFiles_created w.fs p⟩
  | seedFile path data len =>
      obtain ⟨hmissing, hdata, hlong⟩ := hleaves
      obtain ⟨p, name, rfl, -⟩ := id hmissing
      have hvalid : ¬((some p : Option (List UInt8)) = none ∨ data.isNone = true ∧ len ≠ 0) := by
        rintro (hnone | ⟨hnone, -⟩)
        · cases hnone
        · simp [Option.isSome_iff_ne_none.mp hdata] at hnone
      have hcap : ((createdFs w.fs p).nodes w.fs.nodeCount).dataCapacity = fileCapacity := by
        simp [createdFs, withFile]
      have hseed : mcsRamfsSeedFile w.fs (some p) data len =
          (createdFs w.fs p, .error .enospc) := by
        rw [mcsRamfsSeedFile, if_neg hvalid, createFile_missing h hmissing]
        dsimp only
        rw [hcap, if_pos hlong]
      simp only [VfsWorld.step, hseed]
      exact ⟨code_neg .enospc, not_sameFiles_created w.fs p⟩
  | _ => exact hleaves.elim

theorem sameFiles_create (h : Represents w.fs files) {path : Option (List UInt8)}
    (hret : statusCode (mcsRamfsCreateFile w.fs path).2 < 0) :
    (mcsRamfsCreateFile w.fs path).1 = w.fs := by
  rcases path with _ | path
  · rfl
  · rcases createFile_cases h path with
      ⟨rc, hcall⟩ | ⟨n, -, -, -, hcall⟩ | ⟨name, rc, -, -, -, hcall⟩
    · rw [hcall]
    · rw [hcall]
    · rw [hcall] at hret
      exact absurd hret (Int.lt_irrefl 0)

theorem open_failed (h : Represents w.fs files) {i : Nat} {path : Option (List UInt8)}
    {flags : UInt32} (hret : (w.step (.vfsOpen i path flags)).2.ret < 0) :
    (w.step (.vfsOpen i path flags)).1.fs = w.fs ∨ LeavesFile w (.vfsOpen i path flags) := by
  rcases path with _ | path
  · exact .inl rfl
  · simp only [VfsWorld.step, mcsVfsOpen] at hret ⊢
    rcases openNode_cases h path (defaultFlags flags) with ⟨rc, hopen⟩ | ⟨fs', n, hopened, hopen⟩
    · rw [hopen]
      exact .inl rfl
    · rw [hopen] at hret ⊢
      dsimp only at hret ⊢
      rcases hopened with ⟨-, -, rfl⟩ | ⟨name, rc, htarget, hlookup, hcreat, hroom, rfl, rfl⟩
      · exact .inl (openDescriptor_failed hret)
      · right
        rw [openDescriptor_failed_iff (by simp [createdFs, withFile]),
          defaultFlags_and (by decide), mcsCanWrite_defaultFlags] at hret
        rw [defaultFlags_and (by decide)] at hcreat
        obtain rfl := lookup_entry h htarget hlookup
        exact ⟨⟨path, name, rfl, htarget, hlookup, hroom⟩, hcreat, hret⟩

theorem seed_failed (h : Represents w.fs files) {path : Option (List UInt8)}
    {data : Option (Nat → UInt8)} {len : Nat}
    (hret : (w.step (.seedFile path data len)).2.ret < 0) :
    (w.step (.seedFile path data len)).1.fs = w.fs ∨ LeavesFile w (.seedFile path data len) := by
  simp only [VfsWorld.step] at hret ⊢
  unfold mcsRamfsSeedFile at hret ⊢
  split
  · exact .inl rfl
  case isFalse hvalid =>
    rw [if_neg hvalid] at hret
    rcases path with _ | path
    · exact absurd (.inl rfl) hvalid
    · rcases createFile_cases h path with
        ⟨rc, hcall⟩ | ⟨n, -, -, -, hcall⟩ | ⟨name, rc, htarget, hlookup, hroom, hcall⟩
      · rw [hcall]
        exact .inl rfl
      · rw [hcall] at hret ⊢
        dsimp only at hret ⊢
        split
        · exact .inl rfl
        case isFalse hfits =>
          rw [if_neg hfits] at hret
          exact absurd hret (Int.lt_irrefl 0)
      · rw [hcall] at hret
        dsimp only at hret
        have hcap : ((createdFs w.fs path).nodes w.fs.nodeCount).dataCapacity = fileCapacity := by
          simp [createdFs, withFile]
        rw [hcap] at hret
        split at hret
        case isTrue hlong =>
          obtain rfl := lookup_entry h htarget hlookup
          refine .inr ⟨⟨path, name, rfl, htarget, hlookup, hroom⟩, ?_, hlong⟩
          by_contra hdata
          refine hvalid (.inr ⟨by simpa using hdata, ?_⟩)
          omega
        case isFalse hfits => exact absurd hret (Int.lt_irrefl 0)

/-- In every reachable state, a call that can make files leaves the file system as it was
when it fails, exactly if it is not one of those that fail after the file was made. -/
theorem failed_sameFiles_iff {fs : McsRamfs} {tables : Nat → McsFdTable}
    {trace : List (VfsCall × VfsResult)}
    (hrun : Run callSystem (startWorld fs tables) trace w) {call : VfsCall}
    (hmakes : makesFiles call = true) :
    ((w.step call).2.ret < 0 → SameFiles w.fs (w.step call).1.fs) ↔ ¬LeavesFile w call := by
  obtain ⟨files, h⟩ := (sound_run hrun).represents
  constructor
  · intro hsame hleaves
    obtain ⟨hret, hnot⟩ := hleaves.not_same h
    exact hnot (hsame hret)
  · intro hnot hret
    have hfs : (w.step call).1.fs = w.fs := by
      cases call with
      | createFile path => exact sameFiles_create h hret
      | seedFile path data len => exact (seed_failed h hret).resolve_right hnot
      | vfsOpen i path flags => exact (open_failed h hret).resolve_right hnot
      | _ => cases hmakes
    rw [hfs]
    exact .refl w.fs

/-- An `open` of a missing file without the flag that makes it fails and changes nothing. -/
theorem failed_sameFiles_missing :
    (freshWorld.step (.vfsOpen 0 (some [slash, 0x61]) mcsORdwr)).2.ret = -2 ∧
      SameFiles freshWorld.fs
        (freshWorld.step (.vfsOpen 0 (some [slash, 0x61]) mcsORdwr)).1.fs := by
  have hrun : Run callSystem freshWorld [] freshWorld := .nil _
  refine ⟨by decide, (failed_sameFiles_iff hrun rfl).mpr ?_ (by decide)⟩
  rintro ⟨-, hcreat, -⟩
  exact hcreat (by decide)

/-- A new file is to be truncated without the right to write, and another one is to be
seeded with more bytes than it can hold: both calls fail, and both files are there. -/
theorem failed_not_sameFiles :
    ((freshWorld.step (.vfsOpen 0 (some [slash, 0x61]) (mcsOCreat ||| mcsOTrunc))).2.ret = -13 ∧
        ¬SameFiles freshWorld.fs
          (freshWorld.step (.vfsOpen 0 (some [slash, 0x61]) (mcsOCreat ||| mcsOTrunc))).1.fs) ∧
      (freshWorld.step (.seedFile (some [slash, 0x61]) (some fun _ => 7) 257)).2.ret = -28 ∧
        ¬SameFiles freshWorld.fs
          (freshWorld.step (.seedFile (some [slash, 0x61]) (some fun _ => 7) 257)).1.fs := by
  refine ⟨⟨by decide, fun h => ?_⟩, by decide, fun h => ?_⟩
  · exact absurd h.nodeCount (by decide)
  · exact absurd h.nodeCount (by decide)

end Steps

end Mcsos.VfsFailures

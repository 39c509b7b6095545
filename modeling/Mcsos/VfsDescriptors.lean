import Mathlib.Order.Bounds.Basic
import Mcsos.VfsInvariant

namespace Mcsos.VfsDescriptors

open Mcsos.CallSystem
open Mcsos.RamfsModel
open Mcsos.FdModel
open Mcsos.VfsInvariant

/-- What a descriptor in use stands for. -/
structure Descriptor where
  flags : UInt32
  offset : Nat
  node : Option Nat
deriving DecidableEq, Repr

abbrev DescriptorMap := Nat → Option Descriptor

/-- The descriptors in use. -/
def usedSet (m : DescriptorMap) : Set Nat := {fd | (m fd).isSome = true}

/-- The table that a call is made on. -/
def callTable : VfsCall → Option Nat
  | .createFile _ => none
  | .seedFile _ _ _ => none
  | .vfsOpen i _ _ => some i
  | .vfsRead i _ _ _ => some i
  | .vfsWrite i _ _ _ => some i
  | .vfsLseek i _ _ _ => some i
  | .vfsClose i _ => some i
  | .vfsDup i _ => some i

/-- The descriptor that a call operates on; `open` and `dup` operate on a new one. -/
def callDescriptor : VfsCall → Option Int
  | .vfsRead _ fd _ _ => some fd
  | .vfsWrite _ fd _ _ => some fd
  | .vfsLseek _ fd _ _ => some fd
  | .vfsClose _ fd => some fd
  | _ => none

/-- The calls that return a new descriptor. -/
def allocates : VfsCall → Bool
  | .vfsOpen _ _ _ => true
  | .vfsDup _ _ => true
  | _ => false

/-- The calls that return a descriptor to the table. -/
def releases : VfsCall → Bool
  | .vfsClose _ _ => true
  | _ => false

/-- The moves on the table with number `i`. -/
inductive DescriptorStep (i : Nat) :
    DescriptorMap → VfsCall → VfsResult → DescriptorMap → Prop
  | elsewhere {m call result} (htable : callTable call ≠ some i) :
      DescriptorStep i m call result m
  | add {m call} {result : VfsResult} {fd : Nat} (d : Descriptor) (htable : callTable call = some i)
      (halloc : allocates call = true) (hleast : IsLeast (usedSet m)ᶜ fd)
      (hfd : fd < mcsMaxOpenFiles) (hret : result.ret = fd) :
      DescriptorStep i m call result (Function.update m fd (some d))
  | refuse {m call} {result : VfsResult} (htable : callTable call = some i)
      (halloc : allocates call = true)
      (hret : result.ret < 0)
      (hfull : result.ret = McsStatus.enfile.code → ∀ fd < mcsMaxOpenFiles, fd ∈ usedSet m) :
      DescriptorStep i m call result m
  | drop {m} {result : VfsResult} {fd : Nat} (hfd : fd ∈ usedSet m) (hret : result.ret = 0) :
      DescriptorStep i m (.vfsClose i fd) result (Function.update m fd none)
  | keep {m fd} {result : VfsResult} (hret : result.ret < 0) :
      DescriptorStep i m (.vfsClose i fd) result m
  | stay {m call result} (halloc : allocates call = false) (hrelease : releases call = false) :
      DescriptorStep i m call result m
  | move {m call result} {fd : Nat} {d : Descriptor} (offset : Nat)
      (htable : callTable call = some i) (halloc : allocates call = false)
      (hrelease : releases call = false)
      (hcall : callDescriptor call = some fd) (hfd : m fd = some d) :
      DescriptorStep i m call result (Function.update m fd (some { d with offset := offset }))

/-- The account that a call gives of the descriptors of table `i`. -/
structure Accounting (i : Nat) (m : DescriptorMap) (call : VfsCall) (result : VfsResult)
    (m' : DescriptorMap) : Prop where
  /-- `open` and `dup` return the smallest unused number, and add exactly it. -/
  added : callTable call = some i → allocates call = true → 0 ≤ result.ret →
    ∃ fd : Nat, result.ret = fd ∧ fd < mcsMaxOpenFiles ∧ IsLeast (usedSet m)ᶜ fd ∧
      usedSet m' = insert fd (usedSet m)
  /-- `close` removes exactly its descriptor. -/
  removed : ∀ fd, call = .vfsClose i fd → 0 ≤ result.ret →
    ∃ n : Nat, fd = n ∧ n ∈ usedSet m ∧ usedSet m' = usedSet m \ {n}
  /-- A call that fails takes no descriptor and loses none. -/
  failed : result.ret < 0 → usedSet m' = usedSet m
  /-- The table is full only when all its descriptors are in use. -/
  full : callTable call = some i → allocates call = true →
    result.ret = McsStatus.enfile.code → ∀ fd < mcsMaxOpenFiles, fd ∈ usedSet m
  /-- The other calls leave the descriptors in use. -/
  others : allocates call = false → releases call = false → usedSet m' = usedSet m
  /-- Calls on other tables change nothing here. -/
  elsewhere : callTable call ≠ some i → m' = m
  /-- The descriptors in use, except the one operated on, keep flags, offset and node. -/
  frame : ∀ fd ∈ usedSet m, callDescriptor call ≠ some (fd : Int) → m' fd = m fd

section Machine

variable {i : Nat} {m m' : DescriptorMap} {call : VfsCall} {result : VfsResult}

theorem usedSet_update_some (m : DescriptorMap) (fd : Nat) (d : Descriptor) :
    usedSet (Function.update m fd (some d)) = insert fd (usedSet m) := by
  ext k
  rcases eq_or_ne k fd with rfl | hne
  · simp [usedSet]
  · simp [usedSet, hne]

theorem usedSet_update_none (m : DescriptorMap) (fd : Nat) :
    usedSet (Function.update m fd none) = usedSet m \ {fd} := by
  ext k
  rcases eq_or_ne k fd with rfl | hne
  · simp [usedSet]
  · simp [usedSet, hne]

theorem usedSet_move {fd : Nat} {d : Descriptor} (hfd : m fd = some d) (offset : Nat) :
    usedSet (Function.update m fd (some { d with offset := offset })) = usedSet m := by
  have hmem : fd ∈ usedSet m := by simp [usedSet, hfd]
  rw [usedSet_update_some, Set.insert_eq_of_mem hmem]

theorem DescriptorStep.accounting (h : DescriptorStep i m call result m') :
    Accounting i m call result m' := by
  cases h with
  | elsewhere htable =>
      refine ⟨fun h => absurd h htable, ?_, fun _ => rfl, fun h => absurd h htable,
        fun _ _ => rfl, fun _ => rfl, fun _ _ _ => rfl⟩
      rintro fd rfl
      exact absurd rfl htable
  | @add _ _ fd d htable halloc hleast hfd hret =>
      refine ⟨fun _ _ _ => ⟨fd, hret, hfd, hleast, usedSet_update_some m fd d⟩, ?_, ?_, ?_, ?_,
        fun h => absurd htable h, ?_⟩
      · rintro fd rfl
        cases halloc
      · intro hneg
        omega
      · intro _ _ hcode
        rw [hret] at hcode
        cases hcode
      · intro hnot
        rw [halloc] at hnot
        cases hnot
      · intro k hk _
        have hne : k ≠ fd := by
          rintro rfl
          exact hleast.1 hk
        exact Function.update_of_ne hne _ _
  | refuse htable halloc hret hfull =>
      refine ⟨fun _ _ hok => absurd hret (Int.not_lt.mpr hok), ?_, fun _ => rfl,
        fun _ _ => hfull, fun _ _ => rfl, fun _ => rfl, fun _ _ _ => rfl⟩
      rintro fd rfl
      cases halloc
  | @drop _ fd hfd hret =>
      refine ⟨fun _ h => absurd h Bool.false_ne_true, ?_, ?_,
        fun _ h => absurd h Bool.false_ne_true, fun _ h => absurd h.symm Bool.false_ne_true,
        fun h => absurd rfl h, ?_⟩
      · intro k hk _
        cases hk
        exact ⟨fd, rfl, hfd, usedSet_update_none m fd⟩
      · intro hneg
        omega
      · intro k _ hk
        have hne : k ≠ fd := by
          rintro rfl
          exact hk rfl
        exact Function.update_of_ne hne _ _
  | keep hret =>
      exact ⟨fun _ h => absurd h Bool.false_ne_true,
        fun _ _ hok => absurd hret (Int.not_lt.mpr hok), fun _ => rfl,
        fun _ h => absurd h Bool.false_ne_true, fun _ _ => rfl, fun _ => rfl, fun _ _ _ => rfl⟩
  | stay halloc hrelease =>
      refine ⟨fun _ h => absurd (h.symm.trans halloc) Bool.noConfusion, ?_, fun _ => rfl,
        fun _ h => absurd (h.symm.trans halloc) Bool.noConfusion, fun _ _ => rfl, fun _ => rfl,
        fun _ _ _ => rfl⟩
      rintro fd rfl
      cases hrelease
  | @move _ _ fd d offset htable halloc hrelease hcall hfd =>
      have hsame := usedSet_move hfd offset
      refine ⟨fun _ h => absurd (h.symm.trans halloc) Bool.noConfusion, ?_, fun _ => hsame,
        fun _ h => absurd (h.symm.trans halloc) Bool.noConfusion, fun _ _ => hsame,
        fun h => absurd htable h, ?_⟩
      · rintro fd rfl
        cases hrelease
      · intro k _ hk
        have hne : k ≠ fd := by
          rintro rfl
          exact hk hcall
        exact Function.update_of_ne hne _ _

end Machine

/-- The descriptor that a slot stands for, if it is in use. -/
def descriptorOf (file : McsFile) : Option Descriptor :=
  if file.used then some ⟨file.flags, file.offset, file.node⟩ else none

def openFiles (table : McsFdTable) : DescriptorMap := fun fd =>
  if fd < mcsMaxOpenFiles then descriptorOf (table fd) else none

section Tables

variable {table : McsFdTable} {slot : Nat}

theorem openFiles_of_used (hslot : slot < mcsMaxOpenFiles) (hused : (table slot).used = true) :
    openFiles table slot =
      some ⟨(table slot).flags, (table slot).offset, (table slot).node⟩ := by
  rw [openFiles, if_pos hslot, descriptorOf, if_pos hused]

theorem mem_usedSet_openFiles :
    slot ∈ usedSet (openFiles table) ↔ slot < mcsMaxOpenFiles ∧ (table slot).used = true := by
  simp only [usedSet, openFiles, descriptorOf, Set.mem_ofPred_eq]
  split
  case isTrue hslot =>
    split
    case isTrue hused => simp [hslot, hused]
    case isFalse hunused => simp [hunused]
  case isFalse hslot => simp [hslot]

theorem openFiles_update (hslot : slot < mcsMaxOpenFiles) (file : McsFile) :
    openFiles (Function.update table slot file) =
      Function.update (openFiles table) slot (descriptorOf file) := by
  funext k
  rcases eq_or_ne k slot with rfl | hne
  · rw [Function.update_self, openFiles, if_pos hslot, Function.update_self]
  · rw [Function.update_of_ne hne, openFiles, openFiles, Function.update_of_ne hne]

theorem openFiles_update_unused {file : McsFile} (hslot : slot < mcsMaxOpenFiles)
    (hfree : (table slot).used = false) (hfile : file.used = false) :
    openFiles (Function.update table slot file) = openFiles table := by
  have hnone : openFiles table slot = none := by
    rw [openFiles, if_pos hslot, descriptorOf, hfree]
    rfl
  rw [openFiles_update hslot, descriptorOf, hfile]
  exact hnone ▸ Function.update_eq_self slot (openFiles table)

theorem mcsFdAlloc_least (table : McsFdTable) :
    (mcsFdAlloc table = (table, .error .enfile) ∧
        ∀ fd < mcsMaxOpenFiles, fd ∈ usedSet (openFiles table)) ∨
      ∃ fd, IsLeast (usedSet (openFiles table))ᶜ fd ∧ fd < mcsMaxOpenFiles ∧
        (table fd).used = false ∧
        mcsFdAlloc table = (Function.update table fd { table fd with used := true }, .ok fd) := by
  unfold mcsFdAlloc
  rcases hfind : (List.range mcsMaxOpenFiles).find? fun i => !(table i).used with _ | fd
  · refine .inl ⟨rfl, fun fd hfd => ?_⟩
    have hused := List.find?_eq_none.mp hfind fd (List.mem_range.mpr hfd)
    exact mem_usedSet_openFiles.mpr ⟨hfd, by simpa using hused⟩
  · obtain ⟨hfree, hlt, hbefore⟩ := List.find?_range_eq_some.mp hfind
    have hunused : (table fd).used = false := by simpa using hfree
    refine .inr ⟨fd, ⟨?_, ?_⟩, List.mem_range.mp hlt, hunused, rfl⟩
    · intro hmem
      exact absurd ((mem_usedSet_openFiles.mp hmem).2.symm.trans hunused) Bool.noConfusion
    · intro k hk
      by_contra hsmall
      have hused := hbefore k (Nat.not_le.mp hsmall)
      refine hk (mem_usedSet_openFiles.mpr ⟨?_, by simpa using hused⟩)
      exact Nat.lt_trans (Nat.not_le.mp hsmall) (List.mem_range.mp hlt)

end Tables

section Codes

variable (fs : McsRamfs)

theorem code_neg (rc : McsStatus) : rc.code < 0 := by
  cases rc <;> decide

theorem code_eq_enfile {rc : McsStatus} (h : rc.code = McsStatus.enfile.code) :
    rc = .enfile := by
  cases rc <;> first | rfl | exact absurd h (by decide)

theorem mcsFindChild_ne_enfile (parent : Nat) (name : List UInt8) (nameLen : Nat) :
    mcsFindChild fs parent name nameLen ≠ .error .enfile := by
  unfold mcsFindChild
  split
  · simp
  · split <;> simp

theorem lookupLoop_ne_enfile (cur : Nat) (seg : List UInt8) (fuel : Nat) :
    lookupLoop fs cur seg fuel ≠ .error .enfile := by
  induction fuel generalizing cur seg with
  | zero => simp [lookupLoop]
  | succ fuel ih =>
      rw [lookupLoop]
      split
      · simp
      · dsimp only
        split
        · simp
        · split
          case h_1 rc hchild =>
            have hne := mcsFindChild_ne_enfile fs (fs.nodes cur).id seg (segmentLength seg)
            rw [hchild] at hne
            simpa using hne
          · split
            · simp
            · split
              · simp
              · exact ih _ _

theorem mcsRamfsLookup_ne_enfile (path : Option (List UInt8)) :
    mcsRamfsLookup fs path ≠ .error .enfile := by
  unfold mcsRamfsLookup
  split
  · simp
  · split
    · simp
    · split
      · simp
      · split
        · simp
        · exact lookupLoop_ne_enfile fs _ _ _

theorem splitLoop_ne_enfile (cur : Nat) (seg : List UInt8) (fuel : Nat) :
    splitLoop fs cur seg fuel ≠ .error .enfile := by
  induction fuel generalizing cur seg with
  | zero => simp [splitLoop]
  | succ fuel ih =>
      rw [splitLoop]
      split
      · simp
      · split
        · simp
        · split
          case h_1 rc hchild =>
            have hne := mcsFindChild_ne_enfile fs (fs.nodes cur).id seg (segmentLength seg)
            rw [hchild] at hne
            simpa using hne
          · split
            · simp
            · exact ih _ _

theorem mcsSplitParentLeaf_ne_enfile (path : List UInt8) :
    mcsSplitParentLeaf fs path ≠ .error .enfile := by
  unfold mcsSplitParentLeaf
  split
  · simp
  · split
    · simp
    · split
      · simp
      · exact splitLoop_ne_enfile fs _ _ _

theorem mcsAllocNode_ne_enfile (parent : Nat) (type : McsVnodeType) (name : List UInt8)
    (nameLen capacity : Nat) :
    (mcsAllocNode fs parent type name nameLen capacity).2 ≠ .error .enfile := by
  unfold mcsAllocNode
  split
  · simp
  · split
    · simp
    · split <;> simp

theorem mcsRamfsCreateFile_ne_enfile (path : Option (List UInt8)) :
    (mcsRamfsCreateFile fs path).2 ≠ .error .enfile := by
  unfold mcsRamfsCreateFile
  split
  · simp
  case h_2 path =>
    split
    · split <;> simp
    · split
      case h_1 rc hsplit =>
        have hne := mcsSplitParentLeaf_ne_enfile fs path
        rw [hsplit] at hne
        simpa using hne
      · split
        · simp
        · exact mcsAllocNode_ne_enfile fs _ _ _ _ _

theorem openNode_ne_enfile (path : Option (List UInt8)) (flags : UInt32) :
    (openNode fs path flags).2 ≠ .error .enfile := by
  unfold openNode
  split
  · simp
  case h_2 rc hlookup =>
    split
    · have hne := mcsRamfsLookup_ne_enfile fs path
      rwa [hlookup] at hne
    · exact mcsRamfsCreateFile_ne_enfile fs path

end Codes

section Calls

variable {table table' : McsFdTable} {fs : McsRamfs} {i : Nat}

theorem mcsFdGet_eq {fd : Int} {slot : Nat} (h : mcsFdGet table fd = some slot) : fd = slot := by
  unfold mcsFdGet at h
  split at h
  · cases h
  case isFalse hrange =>
    split at h
    · cases h
      omega
    · cases h

/-- The table with at most the offset of one descriptor changed. -/
def Moved (table : McsFdTable) (fd : Int) (table' : McsFdTable) : Prop :=
  table' = table ∨ ∃ slot offset, mcsFdGet table fd = some slot ∧
    table' = Function.update table slot { table slot with offset := offset }

theorem mcsVfsRead_moved (fd : Int) (buf : Bool) (len : Nat) :
    Moved table fd (mcsVfsRead table fs fd buf len).table := by
  unfold mcsVfsRead
  split
  · exact .inl rfl
  · split
    · exact .inl rfl
    case h_2 slot hget =>
      dsimp only
      split
      · exact .inl rfl
      · split
        case h_1 node hnode hfs =>
          split
          · exact .inl rfl
          · split
            · exact .inl rfl
            · exact .inr ⟨slot, _, hget, rfl⟩
        · exact .inl rfl

theorem writeAt_moved {fd : Int} {slot : Nat} (hget : mcsFdGet table fd = some slot)
    (offset node : Nat) (buf : Nat → UInt8) (len : Nat) :
    Moved table fd
      (writeAt table fs slot { table slot with offset := offset } node buf len).table := by
  unfold writeAt
  dsimp only
  split
  · exact .inr ⟨slot, offset, hget, rfl⟩
  · split
    · exact .inr ⟨slot, offset, hget, rfl⟩
    · rw [Function.update_idem]
      exact .inr ⟨slot, _, hget, rfl⟩

theorem mcsVfsWrite_moved (fd : Int) (buf : Option (Nat → UInt8)) (len : Nat) :
    Moved table fd (mcsVfsWrite table fs fd buf len).table := by
  unfold mcsVfsWrite
  split
  · exact .inl rfl
  · split
    · exact .inl rfl
    case h_2 slot hget =>
      dsimp only
      split
      · exact .inl rfl
      · split
        case h_1 node hnode hfs =>
          split
          · exact .inl rfl
          · split
            · exact writeAt_moved hget _ node _ len
            · exact writeAt_moved hget (table slot).offset node _ len
        · exact .inl rfl

theorem mcsVfsLseek_moved (fd offset whence : Int) :
    Moved table fd (mcsVfsLseek table fs fd offset whence).1 := by
  unfold mcsVfsLseek
  split
  · exact .inl rfl
  case h_2 slot hget =>
    dsimp only
    split
    · exact .inl rfl
    · split
      · exact .inl rfl
      · split
        · exact .inl rfl
        · split
          · exact .inl rfl
          · exact .inr ⟨slot, _, hget, rfl⟩

theorem Moved.step {fd : Int} (h : Moved table fd table') {call : VfsCall}
    (htable : callTable call = some i) (halloc : allocates call = false)
    (hrelease : releases call = false) (hcall : callDescriptor call = some fd)
    (result : VfsResult) :
    DescriptorStep i (openFiles table) call result (openFiles table') := by
  rcases h with rfl | ⟨slot, offset, hget, rfl⟩
  · exact .stay halloc hrelease
  · obtain ⟨hslot, hused⟩ := mcsFdGet_some hget
    rw [mcsFdGet_eq hget] at hcall
    rw [openFiles_update hslot, descriptorOf, if_pos hused]
    exact .move offset htable halloc hrelease hcall (openFiles_of_used hslot hused)

/-- What `open` and `dup` do: a new descriptor for the smallest unused number, or none. -/
def Allocated (table table' : McsFdTable) (ret : Int) : Prop :=
  (∃ (fd : Nat) (d : Descriptor), IsLeast (usedSet (openFiles table))ᶜ fd ∧
      fd < mcsMaxOpenFiles ∧ ret = fd ∧
      openFiles table' = Function.update (openFiles table) fd (some d)) ∨
    ret < 0 ∧ openFiles table' = openFiles table ∧
      (ret = McsStatus.enfile.code →
        ∀ fd < mcsMaxOpenFiles, fd ∈ usedSet (openFiles table))

theorem Allocated.step {ret : Int} (h : Allocated table table' ret) {call : VfsCall}
    (htable : callTable call = some i) (halloc : allocates call = true) (bytes : List UInt8) :
    DescriptorStep i (openFiles table) call ⟨ret, bytes⟩ (openFiles table') := by
  rcases h with ⟨fd, d, hleast, hfd, hret, hmap⟩ | ⟨hret, hmap, hfull⟩
  · rw [hmap]
    exact .add d htable halloc hleast hfd hret
  · rw [hmap]
    exact .refuse htable halloc hret hfull

theorem allocated_error (rc : McsStatus) (hrc : rc ≠ .enfile) :
    Allocated table table rc.code :=
  .inr ⟨code_neg rc, rfl, fun h => absurd (code_eq_enfile h) hrc⟩

theorem openDescriptor_allocated (node : Nat) (flags : UInt32) :
    Allocated table (openDescriptor table fs node flags).1
      (openDescriptor table fs node flags).2.2 := by
  unfold openDescriptor
  split
  · exact allocated_error .eisdir (by simp)
  · rcases mcsFdAlloc_least table with ⟨hnone, hfull⟩ | ⟨fd, hleast, hfd, hfree, hsome⟩
    · rw [hnone]
      exact .inr ⟨code_neg .enfile, rfl, fun _ => hfull⟩
    · rw [hsome]
      simp only [Function.update_self, Function.update_idem]
      split
      · split
        · refine .inr ⟨code_neg .eacces, openFiles_update_unused hfd hfree rfl, ?_⟩
          intro hcode
          cases hcode
        · exact .inl ⟨fd, ⟨flags, 0, some node⟩, hleast, hfd, rfl, openFiles_update hfd _⟩
      · exact .inl ⟨fd, ⟨flags, _, some node⟩, hleast, hfd, rfl, openFiles_update hfd _⟩

theorem mcsVfsOpen_allocated (path : Option (List UInt8)) (flags : UInt32) :
    Allocated table (mcsVfsOpen table fs path flags).1 (mcsVfsOpen table fs path flags).2.2 := by
  rcases path with _ | path
  · exact allocated_error .einval (by simp)
  · have hne := openNode_ne_enfile fs (some path) (defaultFlags flags)
    simp only [mcsVfsOpen]
    generalize openNode fs (some path) (defaultFlags flags) = found at hne
    obtain ⟨fs', rc | node⟩ := found
    · apply allocated_error rc
      rintro rfl
      exact hne rfl
    · exact openDescriptor_allocated node _

theorem mcsVfsDup_allocated (fd : Int) :
    Allocated table (mcsVfsDup table fd).1 (mcsVfsDup table fd).2 := by
  unfold mcsVfsDup
  split
  · exact allocated_error .ebadf (by simp)
  · rcases mcsFdAlloc_least table with ⟨hnone, hfull⟩ | ⟨newfd, hleast, hfd, hfree, hsome⟩
    · rw [hnone]
      exact .inr ⟨code_neg .enfile, rfl, fun _ => hfull⟩
    · rw [hsome]
      simp only [Function.update_self, Function.update_idem]
      exact .inl ⟨newfd, ⟨_, _, _⟩, hleast, hfd, rfl, openFiles_update hfd _⟩

theorem mcsVfsClose_step (fd : Int) (bytes : List UInt8) :
    DescriptorStep i (openFiles table) (.vfsClose i fd) ⟨(mcsVfsClose table fd).2, bytes⟩
      (openFiles (mcsVfsClose table fd).1) := by
  unfold mcsVfsClose
  split
  · exact .keep (code_neg .ebadf)
  case h_2 slot hget =>
    obtain ⟨hslot, hused⟩ := mcsFdGet_some hget
    rw [mcsFdGet_eq hget, openFiles_update hslot]
    exact .drop (mem_usedSet_openFiles.mpr ⟨hslot, hused⟩) rfl

end Calls

/-- Any calls with any arguments. -/
def callSystem : System VfsWorld VfsCall VfsResult where
  allowed _ _ := True
  step w call := some (w.step call)

section Runs

variable {w w₀ : VfsWorld} {trace : List (VfsCall × VfsResult)}

theorem tables_setTable (w : VfsWorld) (i : Nat) (table : McsFdTable) :
    (w.setTable i table).tables i = table := Function.update_self ..

theorem setTable_self (w : VfsWorld) (i : Nat) : w.setTable i (w.tables i) = w := by
  rw [VfsWorld.setTable, Function.update_eq_self]

theorem step_otherTable {i : Nat} {call : VfsCall} (h : callTable call ≠ some i) :
    (w.step call).1.tables i = w.tables i := by
  have hother : ∀ j table, j ≠ i → (w.setTable j table).tables i = w.tables i :=
    fun j table hne => Function.update_of_ne hne.symm _ _
  cases call with
  | createFile path => rfl
  | seedFile path data len => rfl
  | vfsOpen j path flags => exact hother j _ fun heq => h (congrArg some heq)
  | vfsRead j fd buf len => exact hother j _ fun heq => h (congrArg some heq)
  | vfsWrite j fd buf len => exact hother j _ fun heq => h (congrArg some heq)
  | vfsLseek j fd offset whence => exact hother j _ fun heq => h (congrArg some heq)
  | vfsClose j fd => exact hother j _ fun heq => h (congrArg some heq)
  | vfsDup j fd => exact hother j _ fun heq => h (congrArg some heq)

/-- Every call makes a move of the abstract table. -/
theorem descriptorStep_step (w : VfsWorld) (i : Nat) (call : VfsCall) :
    DescriptorStep i (openFiles (w.tables i)) call (w.step call).2
      (openFiles ((w.step call).1.tables i)) := by
  rcases eq_or_ne (callTable call) (some i) with htable | helse
  · cases call with
    | createFile path => cases htable
    | seedFile path data len => cases htable
    | vfsOpen j path flags =>
        cases htable
        rw [VfsWorld.step, tables_setTable]
        exact (mcsVfsOpen_allocated path flags).step rfl rfl _
    | vfsRead j fd buf len =>
        cases htable
        rw [VfsWorld.step, tables_setTable]
        exact (mcsVfsRead_moved fd buf len).step rfl rfl rfl rfl _
    | vfsWrite j fd buf len =>
        cases htable
        rw [VfsWorld.step, tables_setTable]
        exact (mcsVfsWrite_moved fd buf len).step rfl rfl rfl rfl _
    | vfsLseek j fd offset whence =>
        cases htable
        rw [VfsWorld.step, tables_setTable]
        exact (mcsVfsLseek_moved fd offset whence).step rfl rfl rfl rfl _
    | vfsClose j fd =>
        cases htable
        rw [VfsWorld.step, tables_setTable]
        exact mcsVfsClose_step fd _
    | vfsDup j fd =>
        cases htable
        rw [VfsWorld.step, tables_setTable]
        exact (mcsVfsDup_allocated fd).step rfl rfl _
  · rw [step_otherTable helse]
    exact .elsewhere helse

theorem openFiles_init (table : McsFdTable) : openFiles (mcsFdTableInit table) = fun _ => none := by
  funext fd
  rw [openFiles]
  split
  case isTrue hfd => rw [mcsFdTableInit, if_pos hfd, closedFile, descriptorOf, if_neg (by decide)]
  case isFalse hfd => rfl

/-- Along every run, each table evolves as an abstract map of descriptors in which every
call accounts for the slots. -/
theorem run_accounting (hrun : Run callSystem w₀ trace w) (i : Nat) :
    SpecRun (Accounting i) (openFiles (w₀.tables i)) trace (openFiles (w.tables i)) := by
  obtain ⟨m, hspec, rfl⟩ := hrun.simulation_total (fun _ _ => rfl)
    (fun w m => m = openFiles (w.tables i))
    (by
      rintro w m call rfl _
      exact ⟨_, (descriptorStep_step w i call).accounting, rfl⟩)
    rfl
  exact hspec

/-- A file is opened twice, the first descriptor closed, and its number used again. -/
def reuseCalls : List VfsCall :=
  [.vfsOpen 0 (some [slash, 0x61]) (mcsOCreat ||| mcsORdwr), .vfsDup 0 0, .vfsClose 0 0,
    .vfsOpen 0 (some [slash, 0x62]) mcsORdonly, .vfsDup 0 1]

theorem run_reuseCalls :
    Run callSystem freshWorld
      (reuseCalls.zip [⟨0, []⟩, ⟨1, []⟩, ⟨0, []⟩, ⟨-2, []⟩, ⟨0, []⟩])
      (reuseCalls.foldl (fun w call => (w.step call).1) freshWorld) :=
  .cons trivial rfl (.cons trivial rfl (.cons trivial rfl (.cons trivial rfl
    (.cons trivial rfl (.nil _)))))

theorem run_accounting_reuseCalls :
    SpecRun (Accounting 0) (fun _ => none)
      (reuseCalls.zip [⟨0, []⟩, ⟨1, []⟩, ⟨0, []⟩, ⟨-2, []⟩, ⟨0, []⟩])
      (openFiles ((reuseCalls.foldl (fun w call => (w.step call).1) freshWorld).tables 0)) := by
  rw [← openFiles_init fun _ => closedFile]
  exact run_accounting run_reuseCalls 0

end Runs

end Mcsos.VfsDescriptors

import Mcsos.VfsInvariant

/-!
What the file system is for: named byte sequences, read and written at an offset.
This is a model of the purpose and not of the source; it shares the descriptor
tables, the calls and the error codes with the model of the source.
-/

namespace Mcsos.ByteFiles

open Mcsos.CallSystem
open Mcsos.RamfsModel
open Mcsos.FdModel
open Mcsos.VfsInvariant

structure ByteFile where
  name : List UInt8
  content : List UInt8
deriving DecidableEq, Repr

/-- What a path names: nothing that can exist, the root directory, an entry of the root
directory, or something below such an entry. -/
inductive PathTarget where
  | invalid (rc : McsStatus)
  | root
  | entry (name : List UInt8)
  | below (name : List UInt8)
deriving DecidableEq, Repr

def resolve (path : List UInt8) : PathTarget :=
  let segment := path.drop 1
  let len := segmentLength segment
  if deref path ≠ slash then .invalid .einval
  else if mcsMaxPath ≤ mcsStrlen path then .invalid .enametoolong
  else if deref segment = 0 then .root
  else if len = 0 ∨ mcsMaxName ≤ len then .invalid .einval
  else if deref (segment.drop len) = 0 then .entry (segment.take len)
  else .below (segment.take len)

/-- The number of the file with a name; the root directory has number `0`. -/
def findFile (files : List ByteFile) (name : List UInt8) : Option Nat :=
  (files.findIdx? fun file => file.name == name).map (· + 1)

def lookup (files : List ByteFile) : PathTarget → Except McsStatus Nat
  | .invalid rc => .error rc
  | .root => .ok 0
  | .entry name =>
      match findFile files name with
      | some n => .ok n
      | none => .error .enoent
  | .below name =>
      match findFile files name with
      | some _ => .error .enotdir
      | none => .error .enoent

/-- There is room for 32 files. -/
def maxFiles : Nat := 32

/-- Look a file up, or add an empty one to the root directory. -/
def lookupOrCreate (files : List ByteFile) (target : PathTarget) (flags : UInt32) :
    List ByteFile × Except McsStatus Nat :=
  match lookup files target with
  | .ok n => (files, .ok n)
  | .error rc =>
      match target with
      | .entry name =>
          if flags &&& mcsOCreat = 0 then (files, .error rc)
          else if maxFiles ≤ files.length then (files, .error .enospc)
          else (files ++ [⟨name, []⟩], .ok (files.length + 1))
      | _ => (files, .error rc)

def contentOf (files : List ByteFile) : Nat → List UInt8
  | 0 => []
  | n + 1 => (files[n]?.map ByteFile.content).getD []

def setContent (files : List ByteFile) (n : Nat) (content : List UInt8) : List ByteFile :=
  match n with
  | 0 => files
  | n + 1 => files.modify n fun file => { file with content := content }

/-- Bytes put at an offset: nothing happens for no bytes, and a gap behind the old end
is filled with zero. -/
def overwrite (content : List UInt8) (offset : Nat) (bytes : List UInt8) : List UInt8 :=
  if bytes = [] then content
  else
    (content ++ List.replicate (offset - content.length) 0).take offset ++ bytes ++
      content.drop (offset + bytes.length)

structure ByteWorld where
  files : List ByteFile
  tables : Nat → McsFdTable

def ByteWorld.setTable (a : ByteWorld) (i : Nat) (table : McsFdTable) : ByteWorld :=
  { a with tables := Function.update a.tables i table }

def openFile (table : McsFdTable) (files : List ByteFile) (n : Nat) (flags : UInt32) :
    McsFdTable × List ByteFile × Int :=
  if n = 0 ∧ mcsCanWrite flags then (table, files, McsStatus.eisdir.code)
  else
    match mcsFdAlloc table with
    | (table, .error rc) => (table, files, rc.code)
    | (table, .ok fd) =>
        let offset := if flags &&& mcsOAppend ≠ 0 then (contentOf files n).length else 0
        let file : McsFile := ⟨true, flags, offset, some n, true⟩
        if flags &&& mcsOTrunc ≠ 0 then
          if mcsCanWrite flags = false then
            (Function.update table fd ⟨false, flags, offset, none, false⟩, files,
              McsStatus.eacces.code)
          else (Function.update table fd { file with offset := 0 }, setContent files n [], fd)
        else (Function.update table fd file, files, fd)

def openPath (table : McsFdTable) (files : List ByteFile) (path : Option (List UInt8))
    (flags : UInt32) : McsFdTable × List ByteFile × Int :=
  match path with
  | none => (table, files, McsStatus.einval.code)
  | some path =>
      match lookupOrCreate files (resolve path) (defaultFlags flags) with
      | (files, .error rc) => (table, files, rc.code)
      | (files, .ok n) => openFile table files n (defaultFlags flags)

/-- The file behind a descriptor, which must be in use and allow the access. -/
def accessFile (table : McsFdTable) (fd : Int) (can : UInt32 → Bool) :
    Except McsStatus (Nat × Nat) :=
  match mcsFdGet table fd with
  | none => .error .ebadf
  | some slot =>
      if can (table slot).flags = false then .error .eacces
      else
        match (table slot).node with
        | some (n + 1) => .ok (slot, n + 1)
        | _ => .error .eisdir

def readFile (table : McsFdTable) (files : List ByteFile) (fd : Int) (buf : Bool) (len : Nat) :
    McsFdTable × Int × List UInt8 :=
  if buf = false ∧ len ≠ 0 then (table, McsStatus.einval.code, [])
  else
    match accessFile table fd mcsCanRead with
    | .error rc => (table, rc.code, [])
    | .ok (slot, n) =>
        let offset := (table slot).offset
        let bytes := ((contentOf files n).drop offset).take len
        (Function.update table slot { table slot with offset := offset + bytes.length },
          bytes.length, bytes)

def writeFile (table : McsFdTable) (files : List ByteFile) (fd : Int)
    (buf : Option (Nat → UInt8)) (len : Nat) : McsFdTable × List ByteFile × Int :=
  if buf.isNone ∧ len ≠ 0 then (table, files, McsStatus.einval.code)
  else
    match accessFile table fd mcsCanWrite with
    | .error rc => (table, files, rc.code)
    | .ok (slot, n) =>
        let file := table slot
        let offset :=
          if file.flags &&& mcsOAppend ≠ 0 then (contentOf files n).length else file.offset
        if fileCapacity < offset then
          (Function.update table slot { file with offset := offset }, files,
            McsStatus.einval.code)
        else if fileCapacity < offset + len then
          (Function.update table slot { file with offset := offset }, files,
            McsStatus.enospc.code)
        else
          let bytes := (List.range len).map (buf.getD fun _ => 0)
          (Function.update table slot { file with offset := offset + len },
            setContent files n (overwrite (contentOf files n) offset bytes), len)

/-- Where a seek is relative to, in exact integers. -/
def seekOrigin (file : McsFile) (size : Nat) (whence : Int) : Option Int :=
  if whence = 0 then some 0
  else if whence = 1 then some file.offset
  else if whence = 2 then some size
  else none

def seekFile (table : McsFdTable) (files : List ByteFile) (fd offset whence : Int) :
    McsFdTable × Int :=
  match accessFile table fd fun _ => true with
  | .error rc => (table, rc.code)
  | .ok (slot, n) =>
      match seekOrigin (table slot) (contentOf files n).length whence with
      | none => (table, McsStatus.einval.code)
      | some origin =>
          if origin + offset < 0 then (table, McsStatus.einval.code)
          else
            (Function.update table slot { table slot with offset := (origin + offset).toNat },
              origin + offset)

/-- The calls on descriptors; the others are not part of this model. -/
def ByteWorld.step (a : ByteWorld) : VfsCall → Option (ByteWorld × VfsResult)
  | .vfsOpen i path flags =>
      let (table, files, ret) := openPath (a.tables i) a.files path flags
      some ({ a.setTable i table with files := files }, ⟨ret, []⟩)
  | .vfsRead i fd buf len =>
      let (table, ret, bytes) := readFile (a.tables i) a.files fd buf len
      some (a.setTable i table, ⟨ret, bytes⟩)
  | .vfsWrite i fd buf len =>
      let (table, files, ret) := writeFile (a.tables i) a.files fd buf len
      some ({ a.setTable i table with files := files }, ⟨ret, []⟩)
  | .vfsLseek i fd offset whence =>
      let (table, ret) := seekFile (a.tables i) a.files fd offset whence
      some (a.setTable i table, ⟨ret, []⟩)
  | .vfsClose i fd =>
      let (table, ret) := mcsVfsClose (a.tables i) fd
      some (a.setTable i table, ⟨ret, []⟩)
  | .vfsDup i fd =>
      let (table, ret) := mcsVfsDup (a.tables i) fd
      some (a.setTable i table, ⟨ret, []⟩)
  | _ => none

/-- The results of a sequence of calls. -/
def ByteWorld.results (a : ByteWorld) : List VfsCall → Option (List VfsResult)
  | [] => some []
  | call :: calls =>
      match a.step call with
      | none => none
      | some (b, result) => (b.results calls).map (result :: ·)

/-- No files, and nothing open. -/
def noFiles (tables : Nat → McsFdTable) : ByteWorld :=
  ⟨[], fun i => mcsFdTableInit (tables i)⟩

/-- Each file is a list of at most 256 bytes, and calls do what they do on such lists. -/
def byteSpec (a : ByteWorld) (call : VfsCall) (result : VfsResult) (b : ByteWorld) : Prop :=
  a.step call = some (b, result) ∧ ∀ file ∈ b.files, file.content.length ≤ fileCapacity

theorem results_of_specRun {a b : ByteWorld} {trace : List (VfsCall × VfsResult)}
    (hrun : SpecRun byteSpec a trace b) :
    a.results (trace.map Prod.fst) = some (trace.map Prod.snd) := by
  induction hrun with
  | nil a => rfl
  | cons hstep _ ih =>
      rw [List.map_cons, ByteWorld.results, hstep.1]
      dsimp only
      rw [ih]
      rfl

end Mcsos.ByteFiles

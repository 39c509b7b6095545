import Mcsos.RamfsModel

/-!
The file descriptors of `mcsos/kernel/vfs/fd.c`.
-/

namespace Mcsos.FdModel

open Mcsos.RamfsModel

def mcsMaxOpenFiles : Nat := 16

def mcsORdonly : UInt32 := 0x0001

def mcsOWronly : UInt32 := 0x0002

def mcsORdwr : UInt32 := 0x0004

def mcsOCreat : UInt32 := 0x0100

def mcsOTrunc : UInt32 := 0x0200

def mcsOAppend : UInt32 := 0x0400

/-- `mcs_file_t`.  There is one file system, so `fs` only says whether the pointer to
it is set. -/
structure McsFile where
  used : Bool
  flags : UInt32
  offset : Nat
  node : Option Nat
  fs : Bool
deriving DecidableEq, Repr

/-- `mcs_fd_table_t`, an array of `MCS_MAX_OPEN_FILES` slots. -/
abbrev McsFdTable := Nat → McsFile

def mcsCanRead (flags : UInt32) : Bool := flags &&& mcsORdonly != 0 || flags &&& mcsORdwr != 0

def mcsCanWrite (flags : UInt32) : Bool := flags &&& mcsOWronly != 0 || flags &&& mcsORdwr != 0

def closedFile : McsFile := ⟨false, 0, 0, none, false⟩

def mcsFdTableInit (table : McsFdTable) : McsFdTable := fun i =>
  if i < mcsMaxOpenFiles then closedFile else table i

/-- `mcs_fd_get`, which gives the slot of an open descriptor. -/
def mcsFdGet (table : McsFdTable) (fd : Int) : Option Nat :=
  if fd < 0 ∨ mcsMaxOpenFiles ≤ fd.toNat then none
  else if (table fd.toNat).used then some fd.toNat
  else none

def mcsFdAlloc (table : McsFdTable) : McsFdTable × Except McsStatus Nat :=
  match (List.range mcsMaxOpenFiles).find? fun i => !(table i).used with
  | some i => (Function.update table i { table i with used := true }, .ok i)
  | none => (table, .error .enfile)

/-- The flags with which a file is opened: reading is the default. -/
def defaultFlags (flags : UInt32) : UInt32 :=
  if flags &&& (mcsORdonly ||| mcsOWronly ||| mcsORdwr) = 0 then flags ||| mcsORdonly else flags

/-- The part of `mcs_vfs_open` that finds the node, or makes it. -/
def openNode (fs : McsRamfs) (path : Option (List UInt8)) (flags : UInt32) :
    McsRamfs × Except McsStatus Nat :=
  match mcsRamfsLookup fs path with
  | .ok node => (fs, .ok node)
  | .error rc =>
      if flags &&& mcsOCreat = 0 then (fs, .error rc) else mcsRamfsCreateFile fs path

/-- The part of `mcs_vfs_open` that fills the descriptor. -/
def openDescriptor (table : McsFdTable) (fs : McsRamfs) (node : Nat) (flags : UInt32) :
    McsFdTable × McsRamfs × Int :=
  if (fs.nodes node).type = .dir ∧ mcsCanWrite flags then (table, fs, McsStatus.eisdir.code)
  else
    match mcsFdAlloc table with
    | (table, .error rc) => (table, fs, rc.code)
    | (table, .ok fd) =>
        let offset := if flags &&& mcsOAppend ≠ 0 then (fs.nodes node).size else 0
        let file : McsFile :=
          { table fd with flags := flags, node := some node, fs := true, offset := offset }
        if flags &&& mcsOTrunc ≠ 0 then
          if mcsCanWrite flags = false then
            (Function.update table fd { file with used := false, node := none, fs := false }, fs,
              McsStatus.eacces.code)
          else
            (Function.update table fd { file with offset := 0 }, fs.setSize node 0, fd)
        else (Function.update table fd file, fs, fd)

def mcsVfsOpen (table : McsFdTable) (fs : McsRamfs) (path : Option (List UInt8))
    (flags : UInt32) : McsFdTable × McsRamfs × Int :=
  match path with
  | none => (table, fs, McsStatus.einval.code)
  | some path =>
      let flags := defaultFlags flags
      match openNode fs (some path) flags with
      | (fs, .error rc) => (table, fs, rc.code)
      | (fs, .ok node) => openDescriptor table fs node flags

/-- The indices of the data area that a copy of `n` bytes at `base` uses. -/
def dataIndices (base n : Nat) : List Nat := (List.range n).map (base + ·)

/-- What `mcs_vfs_read` does: the table after it, its result, the bytes it puts in the
buffer, and the indices of the data area it reads them from. -/
structure ReadOutcome where
  table : McsFdTable
  ret : Int
  bytes : List UInt8
  touched : List Nat

/-- `mcs_vfs_read`; `buf` says whether the buffer pointer is not null. -/
def mcsVfsRead (table : McsFdTable) (fs : McsRamfs) (fd : Int) (buf : Bool) (len : Nat) :
    ReadOutcome :=
  if buf = false ∧ len ≠ 0 then ⟨table, McsStatus.einval.code, [], []⟩
  else
    match mcsFdGet table fd with
    | none => ⟨table, McsStatus.ebadf.code, [], []⟩
    | some slot =>
        let file := table slot
        if mcsCanRead file.flags = false then ⟨table, McsStatus.eacces.code, [], []⟩
        else
          match file.node, file.fs with
          | some node, true =>
              if (fs.nodes node).type = .dir then ⟨table, McsStatus.eisdir.code, [], []⟩
              else if (fs.nodes node).size ≤ file.offset then ⟨table, 0, [], []⟩
              else
                let remain := (fs.nodes node).size - file.offset
                let n := min len remain
                let indices := dataIndices ((fs.nodes node).dataOffset + file.offset) n
                ⟨Function.update table slot { file with offset := file.offset + n }, n,
                  indices.map fs.data, indices⟩
          | _, _ => ⟨table, McsStatus.einval.code, [], []⟩

/-- What `mcs_vfs_write` does: the table and the file system after it, its result, and
the indices of the data area it writes to. -/
structure WriteOutcome where
  table : McsFdTable
  fs : McsRamfs
  ret : Int
  touched : List Nat

/-- The end of `mcs_vfs_write`, on a file, at the offset it has set. -/
def writeAt (table : McsFdTable) (fs : McsRamfs) (slot : Nat) (file : McsFile) (node : Nat)
    (buf : Nat → UInt8) (len : Nat) : WriteOutcome :=
  let table := Function.update table slot file
  if (fs.nodes node).dataCapacity < file.offset then ⟨table, fs, McsStatus.einval.code, []⟩
  else
    let n := min len ((fs.nodes node).dataCapacity - file.offset)
    if n < len then ⟨table, fs, McsStatus.enospc.code, []⟩
    else
      let base := (fs.nodes node).dataOffset + file.offset
      let fs := { fs with data := copyBytes fs.data base buf n }
      let offset := file.offset + n
      let fs := if (fs.nodes node).size < offset then fs.setSize node offset else fs
      ⟨Function.update table slot { file with offset := offset }, fs, n, dataIndices base n⟩

/-- `mcs_vfs_write`; a null buffer is `none`. -/
def mcsVfsWrite (table : McsFdTable) (fs : McsRamfs) (fd : Int) (buf : Option (Nat → UInt8))
    (len : Nat) : WriteOutcome :=
  if buf.isNone ∧ len ≠ 0 then ⟨table, fs, McsStatus.einval.code, []⟩
  else
    match mcsFdGet table fd with
    | none => ⟨table, fs, McsStatus.ebadf.code, []⟩
    | some slot =>
        let file := table slot
        if mcsCanWrite file.flags = false then ⟨table, fs, McsStatus.eacces.code, []⟩
        else
          match file.node, file.fs with
          | some node, true =>
              if (fs.nodes node).type = .dir then ⟨table, fs, McsStatus.eisdir.code, []⟩
              else
                let file :=
                  if file.flags &&& mcsOAppend ≠ 0 then
                    { file with offset := (fs.nodes node).size }
                  else file
                writeAt table fs slot file node (buf.getD fun _ => 0) len
          | _, _ => ⟨table, fs, McsStatus.einval.code, []⟩

/-- The conversion of a `size_t` to `long`. -/
def toLong (value : Nat) : Int := Int.bmod value (2 ^ 64)

/-- The base of `mcs_vfs_lseek`, for the three values of `whence`. -/
def seekBase (file : McsFile) (size : Nat) (whence : Int) : Option Int :=
  if whence = 0 then some 0
  else if whence = 1 then some (toLong file.offset)
  else if whence = 2 then some (toLong size)
  else none

/-- `mcs_vfs_lseek`.  The addition wraps where the signed addition of the source would
overflow. -/
def mcsVfsLseek (table : McsFdTable) (fs : McsRamfs) (fd offset whence : Int) :
    McsFdTable × Int :=
  match mcsFdGet table fd with
  | none => (table, McsStatus.ebadf.code)
  | some slot =>
      let file := table slot
      match file.node with
      | none => (table, McsStatus.eisdir.code)
      | some node =>
          if (fs.nodes node).type = .dir then (table, McsStatus.eisdir.code)
          else
            match seekBase file (fs.nodes node).size whence with
            | none => (table, McsStatus.einval.code)
            | some base =>
                let next := Int.bmod (base + offset) (2 ^ 64)
                if next < 0 then (table, McsStatus.einval.code)
                else
                  (Function.update table slot { file with offset := next.toNat },
                    Int.bmod next (2 ^ 32))

def mcsVfsClose (table : McsFdTable) (fd : Int) : McsFdTable × Int :=
  match mcsFdGet table fd with
  | none => (table, McsStatus.ebadf.code)
  | some slot => (Function.update table slot closedFile, 0)

def mcsVfsDup (table : McsFdTable) (fd : Int) : McsFdTable × Int :=
  match mcsFdGet table fd with
  | none => (table, McsStatus.ebadf.code)
  | some slot =>
      match mcsFdAlloc table with
      | (table, .error rc) => (table, rc.code)
      | (table, .ok newfd) =>
          let file := table slot
          (Function.update table newfd
            { table newfd with
              flags := file.flags, offset := file.offset, node := file.node, fs := file.fs },
            newfd)

end Mcsos.FdModel

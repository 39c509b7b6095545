import Mathlib.Algebra.Group.Int.Defs
import Mathlib.Algebra.Group.Nat.Defs
import Mathlib.Logic.Function.Basic

/-!
The in-memory file system of `mcsos/kernel/vfs/ramfs.c`.  A C string is the list of
its bytes, with the terminating zero left out, and a pointer into a string is the
rest of the string from there on.  A node pointer is the index of the node.
-/

namespace Mcsos.RamfsModel

/-- The failure codes of `mcs_vfs_status_t` that the file system uses. -/
inductive McsStatus where
  | enoent
  | ebadf
  | eacces
  | enotdir
  | eisdir
  | einval
  | enfile
  | enospc
  | enametoolong
deriving DecidableEq, Repr

def McsStatus.code : McsStatus → Int
  | .enoent => -2
  | .ebadf => -9
  | .eacces => -13
  | .enotdir => -20
  | .eisdir => -21
  | .einval => -22
  | .enfile => -23
  | .enospc => -28
  | .enametoolong => -36

def mcsMaxName : Nat := 32

def mcsMaxPath : Nat := 128

def mcsMaxNodes : Nat := 64

def mcsRamfsDataBytes : Nat := 8192

/-- The capacity that `mcs_ramfs_create_file` asks for. -/
def fileCapacity : Nat := 256

inductive McsVnodeType where
  | dir
  | file
deriving DecidableEq, Repr

/-- `mcs_vnode_t`. -/
structure McsVnode where
  used : Bool
  id : Nat
  parent : Nat
  type : McsVnodeType
  name : Nat → UInt8
  size : Nat
  dataOffset : Nat
  dataCapacity : Nat

/-- `mcs_ramfs_t`. -/
structure McsRamfs where
  nodes : Nat → McsVnode
  nodeCount : Nat
  data : Nat → UInt8
  dataUsed : Nat

/-- The byte `'/'`. -/
def slash : UInt8 := 0x2f

/-- The byte that a string pointer points to. -/
def deref (s : List UInt8) : UInt8 := s.headD 0

def mcsStrlen : List UInt8 → Nat
  | [] => 0
  | c :: s => if c = 0 then 0 else mcsStrlen s + 1

def mcsStreqN (a : List UInt8) (b : Nat → UInt8) (n : Nat) : Bool :=
  (List.range n).all (fun i => a.getD i 0 == b i) && b n == 0

/-- The name array after `mcs_copy_name`. -/
def mcsCopyName (src : List UInt8) (n : Nat) : Nat → UInt8 := fun i =>
  if i < n ∧ i + 1 < mcsMaxName then src.getD i 0 else 0

/-- The loop that moves `next` to the end of the segment; its length. -/
def segmentLength : List UInt8 → Nat
  | [] => 0
  | c :: s => if c ≠ slash ∧ c ≠ 0 then segmentLength s + 1 else 0

def mcsFindChild (fs : McsRamfs) (parent : Nat) (name : List UInt8) (nameLen : Nat) :
    Except McsStatus Nat :=
  if nameLen = 0 ∨ mcsMaxName ≤ nameLen then .error .einval
  else
    match (List.range fs.nodeCount).find? fun i =>
        (fs.nodes i).used && (fs.nodes i).parent == parent &&
          mcsStreqN name (fs.nodes i).name nameLen with
    | some i => .ok i
    | none => .error .enoent

/-- The loop of `mcs_split_parent_leaf`, which returns the parent, the leaf and its
length.  Each round uses up a byte of the path, so as much `fuel` as the path has
bytes is enough. -/
def splitLoop (fs : McsRamfs) (cur : Nat) (seg : List UInt8) :
    Nat → Except McsStatus (Nat × List UInt8 × Nat)
  | 0 => .error .einval
  | fuel + 1 =>
      let segLen := segmentLength seg
      let next := seg.drop segLen
      if segLen = 0 ∨ mcsMaxName ≤ segLen then .error .einval
      else if deref next = 0 then .ok (cur, seg, segLen)
      else
        match mcsFindChild fs (fs.nodes cur).id seg segLen with
        | .error rc => .error rc
        | .ok child =>
            if (fs.nodes child).type ≠ .dir then .error .enotdir
            else splitLoop fs child (next.drop 1) fuel

def mcsSplitParentLeaf (fs : McsRamfs) (path : List UInt8) :
    Except McsStatus (Nat × List UInt8 × Nat) :=
  if deref path ≠ slash then .error .einval
  else if deref (path.drop 1) = 0 then .error .einval
  else if mcsMaxPath ≤ mcsStrlen path then .error .enametoolong
  else splitLoop fs 0 (path.drop 1) path.length

def mcsAllocNode (fs : McsRamfs) (parent : Nat) (type : McsVnodeType) (name : List UInt8)
    (nameLen capacity : Nat) : McsRamfs × Except McsStatus Nat :=
  if nameLen = 0 ∨ mcsMaxName ≤ nameLen then (fs, .error .einval)
  else if mcsMaxNodes ≤ fs.nodeCount then (fs, .error .enospc)
  else if type = .file ∧ mcsRamfsDataBytes < (fs.dataUsed + capacity) % 2 ^ 64 then
    (fs, .error .enospc)
  else
    let node : McsVnode :=
      { used := true
        id := fs.nodeCount % 2 ^ 32
        parent := parent
        type := type
        name := mcsCopyName name nameLen
        size := 0
        dataOffset := if type = .file then fs.dataUsed else 0
        dataCapacity := if type = .file then capacity else 0 }
    ({ fs with
        nodes := Function.update fs.nodes fs.nodeCount node
        nodeCount := fs.nodeCount + 1
        dataUsed := if type = .file then (fs.dataUsed + capacity) % 2 ^ 64 else fs.dataUsed },
      .ok fs.nodeCount)

/-- A node that `mcs_ramfs_init` has cleared. -/
def clearedNode (node : McsVnode) : McsVnode :=
  { used := false, id := 0, parent := 0, type := .file,
    name := Function.update node.name 0 0, size := 0, dataOffset := 0, dataCapacity := 0 }

def mcsRamfsInit (fs : McsRamfs) : McsRamfs :=
  let nodes := fun i => if i < mcsMaxNodes then clearedNode (fs.nodes i) else fs.nodes i
  let root : McsVnode :=
    { nodes 0 with
      used := true
      id := 0
      parent := 0
      type := .dir
      name := Function.update (Function.update (nodes 0).name 0 slash) 1 0 }
  { nodes := Function.update nodes 0 root
    nodeCount := 1
    data := fun i => if i < mcsRamfsDataBytes then 0 else fs.data i
    dataUsed := 0 }

/-- The loop of `mcs_ramfs_lookup`, with the same fuel as that of the other walk. -/
def lookupLoop (fs : McsRamfs) (cur : Nat) (seg : List UInt8) : Nat → Except McsStatus Nat
  | 0 => .error .einval
  | fuel + 1 =>
      if deref seg = 0 then .error .einval
      else
        let segLen := segmentLength seg
        let next := seg.drop segLen
        if segLen = 0 ∨ mcsMaxName ≤ segLen then .error .einval
        else
          match mcsFindChild fs (fs.nodes cur).id seg segLen with
          | .error rc => .error rc
          | .ok child =>
              if deref next = 0 then .ok child
              else if (fs.nodes child).type ≠ .dir then .error .enotdir
              else lookupLoop fs child (next.drop 1) fuel

/-- `mcs_ramfs_lookup`; a null path is `none`. -/
def mcsRamfsLookup (fs : McsRamfs) (path : Option (List UInt8)) : Except McsStatus Nat :=
  match path with
  | none => .error .einval
  | some path =>
      if deref path ≠ slash then .error .einval
      else if mcsMaxPath ≤ mcsStrlen path then .error .enametoolong
      else if deref (path.drop 1) = 0 then .ok 0
      else lookupLoop fs 0 (path.drop 1) path.length

def mcsRamfsCreateFile (fs : McsRamfs) (path : Option (List UInt8)) :
    McsRamfs × Except McsStatus Nat :=
  match path with
  | none => (fs, .error .einval)
  | some path =>
      match mcsRamfsLookup fs (some path) with
      | .ok existing =>
          if (fs.nodes existing).type ≠ .file then (fs, .error .eisdir) else (fs, .ok existing)
      | .error _ =>
          match mcsSplitParentLeaf fs path with
          | .error rc => (fs, .error rc)
          | .ok (parent, leaf, leafLen) =>
              if (fs.nodes parent).type ≠ .dir then (fs, .error .enotdir)
              else mcsAllocNode fs (fs.nodes parent).id .file leaf leafLen fileCapacity

/-- The data area after `n` bytes of `src` have been copied to `base`. -/
def copyBytes (data : Nat → UInt8) (base : Nat) (src : Nat → UInt8) (n : Nat) : Nat → UInt8 :=
  fun i => if base ≤ i ∧ i < base + n then src (i - base) else data i

def McsRamfs.setSize (fs : McsRamfs) (node size : Nat) : McsRamfs :=
  { fs with nodes := Function.update fs.nodes node { fs.nodes node with size := size } }

/-- `mcs_ramfs_seed_file`; null pointers are `none`. -/
def mcsRamfsSeedFile (fs : McsRamfs) (path : Option (List UInt8)) (data : Option (Nat → UInt8))
    (len : Nat) : McsRamfs × Except McsStatus Unit :=
  if path = none ∨ data.isNone ∧ len ≠ 0 then (fs, .error .einval)
  else
    match mcsRamfsCreateFile fs path with
    | (fs, .error rc) => (fs, .error rc)
    | (fs, .ok node) =>
        if (fs.nodes node).dataCapacity < len then (fs, .error .enospc)
        else
          let copied := copyBytes fs.data (fs.nodes node).dataOffset (data.getD fun _ => 0) len
          (McsRamfs.setSize { fs with data := copied } node len, .ok ())

end Mcsos.RamfsModel

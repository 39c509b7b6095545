import Mathlib.Algebra.GroupWithZero.Nat
import Mcsos.VfsSeek

namespace Mcsos.VfsRoundTrip

open Mcsos.CallSystem
open Mcsos.RamfsModel
open Mcsos.FdModel
open Mcsos.VfsInvariant
open Mcsos.VfsNames
open Mcsos.VfsOffsets
open Mcsos.VfsRefinement
open Mcsos.VfsDescriptors
open Mcsos.VfsEffects
open Mcsos.VfsSeek

/-- The world after a sequence of calls. -/
def afterCalls (w : VfsWorld) (calls : List VfsCall) : VfsWorld :=
  calls.foldl (fun w call => (w.step call).1) w

/-- What the calls of a sequence return. -/
def callResults (w : VfsWorld) : List VfsCall → List VfsResult
  | [] => []
  | call :: calls => (w.step call).2 :: callResults (w.step call).1 calls

/-- A piece of the byte string: the buffer and the length that a write gets. -/
structure Chunk where
  buf : Nat → UInt8
  len : Nat

def Chunk.bytes (chunk : Chunk) : List UInt8 := (List.range chunk.len).map chunk.buf

/-- The byte string that is cut into the pieces. -/
def chunkBytes (chunks : List Chunk) : List UInt8 := chunks.flatMap Chunk.bytes

def writeCalls (i : Nat) (fd : Int) (chunks : List Chunk) : List VfsCall :=
  chunks.map fun chunk => .vfsWrite i fd (some chunk.buf) chunk.len

def readCalls (i : Nat) (fd : Int) (lens : List Nat) : List VfsCall :=
  lens.map fun len => .vfsRead i fd true len

/-- The descriptor is open on file `n`, for reading and for writing, not for appending. -/
structure OpenRdwr (w : VfsWorld) (i : Nat) (fd : Int) (slot n : Nat) : Prop where
  slot_eq : mcsFdGet (w.tables i) fd = some slot
  node_eq : (w.tables i slot).node = some n
  file : (w.fs.nodes n).type = .file
  canRead : mcsCanRead (w.tables i slot).flags = true
  canWrite : mcsCanWrite (w.tables i slot).flags = true
  noAppend : (w.tables i slot).flags &&& mcsOAppend = 0

/-- The table with another offset in a slot. -/
def setOffset (table : McsFdTable) (slot offset : Nat) : McsFdTable :=
  Function.update table slot { table slot with offset := offset }

section Offset

variable {w w' : VfsWorld} {table : McsFdTable} {i slot n offset : Nat} {fd : Int}

theorem setOffset_self (table : McsFdTable) (slot offset : Nat) :
    setOffset table slot offset slot = { table slot with offset := offset } :=
  Function.update_self ..

theorem setOffset_offset (table : McsFdTable) (slot offset : Nat) :
    (setOffset table slot offset slot).offset = offset := by
  rw [setOffset_self]

theorem setOffset_of_ne {other : Nat} (h : other ≠ slot) :
    setOffset table slot offset other = table other :=
  Function.update_of_ne h ..

theorem setOffset_same (table : McsFdTable) (slot : Nat) :
    setOffset table slot (table slot).offset = table :=
  Function.update_eq_self ..

theorem setOffset_setOffset (table : McsFdTable) (slot first second : Nat) :
    setOffset (setOffset table slot first) slot second = setOffset table slot second := by
  unfold setOffset
  rw [Function.update_self, Function.update_idem]

theorem mcsFdGet_setOffset (table : McsFdTable) (slot offset : Nat) (fd : Int) :
    mcsFdGet (setOffset table slot offset) fd = mcsFdGet table fd := by
  have hused : (setOffset table slot offset fd.toNat).used = (table fd.toNat).used := by
    rcases eq_or_ne fd.toNat slot with heq | hne
    · rw [heq, setOffset_self]
    · rw [setOffset_of_ne hne]
  rw [mcsFdGet, mcsFdGet, hused]

theorem setTable_setTable (w : VfsWorld) (i : Nat) (first second : McsFdTable) :
    (w.setTable i first).setTable i second = w.setTable i second := by
  rw [VfsWorld.setTable, VfsWorld.setTable, VfsWorld.setTable, Function.update_idem]

theorem OpenRdwr.moved (h : OpenRdwr w i fd slot n)
    (htable : w'.tables i = setOffset (w.tables i) slot offset)
    (htype : (w'.fs.nodes n).type = (w.fs.nodes n).type) : OpenRdwr w' i fd slot n := by
  obtain ⟨hget, hnode, hfile, hread, hwrite, happend⟩ := h
  constructor
  · rw [htable, mcsFdGet_setOffset, hget]
  · rw [htable, setOffset_self, hnode]
  · rw [htype, hfile]
  · rw [htable, setOffset_self]
    exact hread
  · rw [htable, setOffset_self]
    exact hwrite
  · rw [htable, setOffset_self]
    exact happend

theorem OpenRdwr.pos (h : OpenRdwr w i fd slot n) (hsound : Sound w) : 0 < n :=
  hsound.inv.ramfs.pos_of_file (by rw [h.file]; simp)

theorem OpenRdwr.lt (h : OpenRdwr w i fd slot n) (hsound : Sound w) : n < w.fs.nodeCount := by
  obtain ⟨-, m, hm, hn⟩ := (hsound.inv.tables i).node h.slot_eq
  obtain rfl : n = m := Option.some.inj (h.node_eq.symm.trans hm)
  exact hn

end Offset

/-- `w'` is `w` with the bytes `s` put into file `n` at an offset, and the descriptor
behind them. -/
structure Wrote (w w' : VfsWorld) (i slot n offset : Nat) (s : List UInt8) : Prop where
  tables : w'.tables =
    Function.update w.tables i (setOffset (w.tables i) slot (offset + s.length))
  nodeCount : w'.fs.nodeCount = w.fs.nodeCount
  node : ∀ m, w'.fs.nodes m =
    if m = n then { w.fs.nodes m with size := max (w.fs.nodes n).size (offset + s.length) }
    else w.fs.nodes m
  data : ∀ k, w'.fs.data k =
    if (w.fs.nodes n).dataOffset + offset ≤ k ∧
        k < (w.fs.nodes n).dataOffset + offset + s.length then
      s.getD (k - ((w.fs.nodes n).dataOffset + offset)) 0
    else w.fs.data k

section Write

variable {w w' w'' : VfsWorld} {i slot n offset : Nat} {fd : Int} {s t : List UInt8}

theorem Wrote.table (h : Wrote w w' i slot n offset s) :
    w'.tables i = setOffset (w.tables i) slot (offset + s.length) := by
  rw [h.tables, Function.update_self]

theorem Wrote.openRdwr (h : Wrote w w' i slot n offset s) (hopen : OpenRdwr w i fd slot n) :
    OpenRdwr w' i fd slot n := by
  refine hopen.moved h.table ?_
  rw [h.node, if_pos rfl]

theorem Wrote.trans (h : Wrote w w' i slot n offset s)
    (h' : Wrote w' w'' i slot n (offset + s.length) t) :
    Wrote w w'' i slot n offset (s ++ t) := by
  have hnode : w'.fs.nodes n =
      { w.fs.nodes n with size := max (w.fs.nodes n).size (offset + s.length) } := by
    rw [h.node, if_pos rfl]
  constructor
  · rw [h'.tables, h.table, h.tables, Function.update_idem, setOffset_setOffset,
      List.length_append, Nat.add_assoc]
  · exact h'.nodeCount.trans h.nodeCount
  · intro m
    rw [h'.node, h.node, hnode, List.length_append]
    split
    · have hmax : max (max (w.fs.nodes n).size (offset + s.length))
          (offset + s.length + t.length) =
            max (w.fs.nodes n).size (offset + (s.length + t.length)) := by omega
      dsimp only
      rw [hmax]
    · rfl
  · intro k
    rw [h'.data, hnode, h.data, List.length_append]
    dsimp only
    rcases Nat.lt_or_ge k ((w.fs.nodes n).dataOffset + offset + s.length) with hk | hk
    · rw [if_neg (by omega)]
      split
      · rw [if_pos (by omega), List.getD_append _ _ _ _ (by omega)]
      · rw [if_neg (by omega)]
    · rw [if_neg (c := _ ∧ k < (w.fs.nodes n).dataOffset + offset + s.length) (by omega)]
      split
      · rw [if_pos (by omega), List.getD_append_right _ _ _ _ (by omega)]
        congr 1
        omega
      · rw [if_neg (by omega)]

theorem Chunk.length_bytes (chunk : Chunk) : chunk.bytes.length = chunk.len := by
  rw [Chunk.bytes, List.length_map, List.length_range]

theorem step_write (hsound : Sound w) (hopen : OpenRdwr w i fd slot n) (chunk : Chunk)
    (hfits : (w.tables i slot).offset + chunk.len ≤ fileCapacity) :
    (w.step (.vfsWrite i fd (some chunk.buf) chunk.len)).2.ret = chunk.len ∧
      Wrote w (w.step (.vfsWrite i fd (some chunk.buf) chunk.len)).1 i slot n
        (w.tables i slot).offset chunk.bytes := by
  have hstart : writeStart w.fs (w.tables i slot) n = (w.tables i slot).offset :=
    if_neg (not_not.mpr hopen.noAppend)
  have hbuf : ¬((some chunk.buf).isNone = true ∧ chunk.len ≠ 0) := by simp
  have hwrite := mcsVfsWrite_file hsound.inv.ramfs (hsound.inv.tables i) hbuf hopen.slot_eq
    hopen.canWrite hopen.node_eq (hopen.pos hsound) (hopen.lt hsound)
  rw [hstart, if_neg (by omega), if_neg (by omega)] at hwrite
  simp only [VfsWorld.step, hwrite]
  refine ⟨trivial, ?_, ?_, ?_, ?_⟩
  · rw [chunk.length_bytes]
    rfl
  · dsimp only
    rw [writtenFs]
    split <;> rfl
  · intro m
    rw [writtenFs_node, chunk.length_bytes]
  · intro k
    rw [writtenFs_data, chunk.length_bytes, copyBytes]
    split
    case isTrue hk =>
      rw [List.getD_eq_getElem _ _ (by rw [chunk.length_bytes]; omega)]
      simp [Chunk.bytes]
    case isFalse hk => rfl

theorem wrote_chunks (hsound : Sound w) (hopen : OpenRdwr w i fd slot n) {chunks : List Chunk}
    (hne : chunks ≠ [])
    (hfits : (w.tables i slot).offset + (chunkBytes chunks).length ≤ fileCapacity) :
    (callResults w (writeCalls i fd chunks)).map VfsResult.ret =
        chunks.map (fun chunk => (chunk.len : Int)) ∧
      Wrote w (afterCalls w (writeCalls i fd chunks)) i slot n (w.tables i slot).offset
        (chunkBytes chunks) := by
  induction chunks generalizing w with
  | nil => exact absurd rfl hne
  | cons chunk rest ih =>
      have hbytes : chunkBytes (chunk :: rest) = chunk.bytes ++ chunkBytes rest := rfl
      rw [hbytes, List.length_append, chunk.length_bytes] at hfits
      obtain ⟨hret, hwrote⟩ := step_write hsound hopen chunk (by omega)
      rcases rest with _ | ⟨next, rest⟩
      · rw [hbytes, chunkBytes, List.flatMap_nil, List.append_nil]
        exact ⟨congrArg (fun ret => [ret]) hret, hwrote⟩
      · have hoffset := congrArg (fun table => (table slot).offset) hwrote.table
        rw [setOffset_offset] at hoffset
        obtain ⟨hrets, hrest⟩ := ih (hsound.step _) (hwrote.openRdwr hopen) (by simp)
          (by rw [hoffset, chunk.length_bytes]; omega)
        rw [hoffset] at hrest
        exact ⟨congr (congrArg List.cons hret) hrets, hwrote.trans hrest⟩

end Write

section Read

variable {w : VfsWorld} {i slot n : Nat} {fd : Int}

theorem step_read (hsound : Sound w) (hopen : OpenRdwr w i fd slot n) (len : Nat) :
    (w.step (.vfsRead i fd true len)).2.bytes =
        ((fileBytes w.fs n).drop (w.tables i slot).offset).take len ∧
      (w.step (.vfsRead i fd true len)).2.ret =
        (w.step (.vfsRead i fd true len)).2.bytes.length ∧
      (w.step (.vfsRead i fd true len)).1 =
        w.setTable i (setOffset (w.tables i) slot ((w.tables i slot).offset +
          (((fileBytes w.fs n).drop (w.tables i slot).offset).take len).length)) := by
  have hbuf : ¬(true = false ∧ len ≠ 0) := by simp
  have hread := mcsVfsRead_file hsound.inv.ramfs (hsound.inv.tables i) hbuf hopen.slot_eq
    hopen.canRead hopen.node_eq (hopen.pos hsound) (hopen.lt hsound)
  have hcount : (((fileBytes w.fs n).drop (w.tables i slot).offset).take len).length =
      min len ((w.fs.nodes n).size - (w.tables i slot).offset) := by
    rw [List.length_take, List.length_drop, length_fileBytes]
  rw [hcount, drop_take_fileBytes]
  rcases Nat.lt_or_ge (w.tables i slot).offset (w.fs.nodes n).size with hlt | hend
  · rw [if_neg (Nat.not_le.mpr hlt)] at hread
    simp only [VfsWorld.step, hread]
    refine ⟨trivial, ?_, rfl⟩
    simp [dataIndices]
  · rw [if_pos hend] at hread
    simp only [VfsWorld.step, hread]
    rw [Nat.sub_eq_zero_of_le hend, Nat.min_zero, Nat.add_zero, setOffset_same]
    exact ⟨rfl, rfl, rfl⟩

theorem take_pieces (l : List UInt8) (len more : Nat) :
    l.take len ++ (l.drop (l.take len).length).take more = l.take (len + more) := by
  rw [List.take_add, List.length_take]
  rcases Nat.le_total len l.length with hle | hge
  · rw [Nat.min_eq_left hle]
  · rw [Nat.min_eq_right hge, List.drop_eq_nil_of_le hge, List.drop_length]

theorem read_pieces (hsound : Sound w) (hopen : OpenRdwr w i fd slot n) (lens : List Nat) :
    (callResults w (readCalls i fd lens)).flatMap (·.bytes) =
        ((fileBytes w.fs n).drop (w.tables i slot).offset).take lens.sum ∧
      (∀ result ∈ callResults w (readCalls i fd lens), result.ret = result.bytes.length) ∧
      ∃ offset, afterCalls w (readCalls i fd lens) =
        w.setTable i (setOffset (w.tables i) slot offset) := by
  induction lens generalizing w with
  | nil =>
      refine ⟨rfl, ?_, (w.tables i slot).offset, ?_⟩
      · intro result hmem
        exact absurd hmem List.not_mem_nil
      · rw [setOffset_same, setTable_self]
        rfl
  | cons len lens ih =>
      obtain ⟨hbytes, hret, hnext⟩ := step_read hsound hopen len
      have htable := congrArg (fun w => w.tables i) hnext
      have hfs := congrArg VfsWorld.fs hnext
      rw [tables_setTable] at htable
      have hopen' := hopen.moved htable (by rw [hfs]; rfl)
      obtain ⟨hpieces, hrets, offset, hlast⟩ := ih (hsound.step _) hopen'
      refine ⟨?_, ?_, offset, ?_⟩
      · change (w.step (.vfsRead i fd true len)).2.bytes ++
          (callResults (w.step (.vfsRead i fd true len)).1 (readCalls i fd lens)).flatMap
            (·.bytes) = _
        rw [hpieces, hbytes, htable, setOffset_offset, hfs, List.sum_cons, ← take_pieces,
          List.drop_drop]
        rfl
      · intro result hmem
        rcases List.mem_cons.mp hmem with rfl | hrest
        · exact hret
        · exact hrets result hrest
      · change afterCalls (w.step (.vfsRead i fd true len)).1 (readCalls i fd lens) = _
        rw [hlast, htable, setOffset_setOffset, hnext, setTable_setTable]

end Read

/-- The world after the writes. -/
def writtenWorld (w : VfsWorld) (i : Nat) (fd : Int) (chunks : List Chunk) : VfsWorld :=
  afterCalls w (writeCalls i fd chunks)

/-- The world after the writes and a seek. -/
def soughtWorld (w : VfsWorld) (i : Nat) (fd : Int) (chunks : List Chunk) (offset whence : Int) :
    VfsWorld :=
  ((writtenWorld w i fd chunks).step (.vfsLseek i fd offset whence)).1

/-- The world after the writes, a seek and the reads. -/
def finalWorld (w : VfsWorld) (i : Nat) (fd : Int) (chunks : List Chunk) (offset whence : Int)
    (lens : List Nat) : VfsWorld :=
  afterCalls (soughtWorld w i fd chunks offset whence) (readCalls i fd lens)

/-- All descriptors but the one in slot `slot` of table `i` are the same. -/
def SameElsewhere (w w' : VfsWorld) (i slot : Nat) : Prop :=
  ∀ j other, j ≠ i ∨ other ≠ slot → w'.tables j other = w.tables j other

/-- The bytes of the chunks are written to file `n` at the offset `start` of the descriptor,
and read again from there.  Nothing else changes. -/
structure RoundTrip (w : VfsWorld) (i : Nat) (fd : Int) (slot n start : Nat) (chunks : List Chunk)
    (offset whence : Int) (lens : List Nat) : Prop where
  written : (callResults w (writeCalls i fd chunks)).map VfsResult.ret =
    chunks.map fun chunk => (chunk.len : Int)
  size : ((writtenWorld w i fd chunks).fs.nodes n).size =
    max (w.fs.nodes n).size (start + (chunkBytes chunks).length)
  sought : ((writtenWorld w i fd chunks).step (.vfsLseek i fd offset whence)).2.ret = start
  counts : ∀ result ∈ callResults (soughtWorld w i fd chunks offset whence) (readCalls i fd lens),
    result.ret = result.bytes.length
  pieces : (callResults (soughtWorld w i fd chunks offset whence) (readCalls i fd lens)).flatMap
      VfsResult.bytes =
    ((fileBytes (finalWorld w i fd chunks offset whence lens).fs n).drop start).take
      (min lens.sum (((writtenWorld w i fd chunks).fs.nodes n).size - start))
  starts : chunkBytes chunks <+:
    (fileBytes (finalWorld w i fd chunks offset whence lens).fs n).drop start
  extent : ∀ k < fileCapacity, k < start ∨ start + (chunkBytes chunks).length ≤ k →
    (finalWorld w i fd chunks offset whence lens).fs.data ((w.fs.nodes n).dataOffset + k) =
      w.fs.data ((w.fs.nodes n).dataOffset + k)
  others : ∀ m < w.fs.nodeCount, m ≠ n →
    SameFile w.fs (finalWorld w i fd chunks offset whence lens).fs m
  descriptors : SameElsewhere w (finalWorld w i fd chunks offset whence lens) i slot

section RoundTrip

variable {w w' : VfsWorld} {i slot n offset : Nat} {fd : Int} {s : List UInt8}

theorem sameElsewhere_update {last : Nat}
    (h : w'.tables = Function.update w.tables i (setOffset (w.tables i) slot last)) :
    SameElsewhere w w' i slot := by
  intro j other hother
  rw [h]
  rcases eq_or_ne j i with rfl | hne
  · rw [Function.update_self, setOffset_of_ne (hother.resolve_left fun hj => hj rfl)]
  · rw [Function.update_of_ne hne]

theorem SameElsewhere.trans {w'' : VfsWorld} (h : SameElsewhere w w' i slot)
    (h' : SameElsewhere w' w'' i slot) : SameElsewhere w w'' i slot := by
  intro j other hother
  rw [h' j other hother, h j other hother]

theorem take_min_length (l : List UInt8) (len : Nat) : l.take (min len l.length) = l.take len := by
  rw [← List.take_take, List.take_length]

theorem sound_afterCalls (hsound : Sound w) (calls : List VfsCall) :
    Sound (afterCalls w calls) := by
  induction calls generalizing w with
  | nil => exact hsound
  | cons call calls ih => exact ih (hsound.step call)

theorem Wrote.starts (h : Wrote w w' i slot n offset s) :
    s <+: (fileBytes w'.fs n).drop offset := by
  have hnode : w'.fs.nodes n =
      { w.fs.nodes n with size := max (w.fs.nodes n).size (offset + s.length) } := by
    rw [h.node, if_pos rfl]
  rw [List.prefix_iff_eq_take]
  refine ext_getD ?_ fun k hk => ?_
  · rw [List.length_take, List.length_drop, length_fileBytes, hnode]
    dsimp only
    omega
  · have hbyte := getD_fileBytes w'.fs n (offset + k)
    rw [hnode, if_pos (by dsimp only; omega), h.data] at hbyte
    dsimp only at hbyte
    rw [if_pos (by omega)] at hbyte
    have hdrop : ((fileBytes w'.fs n).drop offset).getD k 0 =
        (fileBytes w'.fs n).getD (offset + k) 0 := by
      rw [List.getD_eq_getElem?_getD, List.getElem?_drop, ← List.getD_eq_getElem?_getD]
    rw [getD_take hk, hdrop, hbyte]
    congr 1
    omega

theorem Wrote.others (h : Wrote w w' i slot n offset s) (hsound : Sound w) (hpos : 0 < n)
    (hn : n < w.fs.nodeCount) (hfits : offset + s.length ≤ fileCapacity) {m : Nat}
    (hm : m < w.fs.nodeCount) (hne : m ≠ n) : SameFile w.fs w'.fs m := by
  obtain ⟨files, hfiles⟩ := hsound.represents
  have hnode : w'.fs.nodes m = w.fs.nodes m := by rw [h.node, if_neg hne]
  refine ⟨hnode, fileBytes_outside hfiles.inv hpos hn hm hne hfiles.root_size hnode ?_⟩
  intro k hk
  rw [h.data, if_neg (by omega)]

theorem step_seekBack (hsound : Sound w) (hoffsets : OffsetsBelow (2 ^ 63) (w.tables i))
    (hopen : OpenRdwr w i fd slot n) {start : Nat} (hstart : start ≤ 256) {shift whence : Int}
    (hseek : seekTarget (w.tables i slot) (w.fs.nodes n).size shift whence = some (start : Int)) :
    (w.step (.vfsLseek i fd shift whence)).2.ret = start ∧
      (w.step (.vfsLseek i fd shift whence)).1 =
        w.setTable i (setOffset (w.tables i) slot start) := by
  have hlseek := mcsVfsLseek_target hsound.inv.ramfs hoffsets hopen.slot_eq hopen.node_eq
    (hopen.pos hsound) (hopen.lt hsound) hseek (by omega) (by omega)
  rw [if_neg (by omega), Int.toNat_natCast, Int.bmod_eq_of_le (by omega) (by omega)] at hlseek
  simp only [VfsWorld.step, hlseek]
  exact ⟨trivial, rfl⟩

/-- In every reachable state, a byte string that fits behind the offset of a descriptor is
read back after it was written, however both are cut into calls. -/
theorem roundTrip {fs : McsRamfs} {tables : Nat → McsFdTable}
    {trace : List (VfsCall × VfsResult)}
    (hrun : Run callSystem (startWorld fs tables) trace w) (hopen : OpenRdwr w i fd slot n)
    {chunks : List Chunk} (hbytes : chunkBytes chunks ≠ [])
    (hfits : (w.tables i slot).offset + (chunkBytes chunks).length ≤ 256) {offset whence : Int}
    (hseek : seekTarget ((writtenWorld w i fd chunks).tables i slot)
      ((writtenWorld w i fd chunks).fs.nodes n).size offset whence =
        some ((w.tables i slot).offset : Int)) (lens : List Nat) :
    RoundTrip w i fd slot n (w.tables i slot).offset chunks offset whence lens := by
  have hsound := sound_run hrun
  have hne : chunks ≠ [] := by
    rintro rfl
    exact hbytes rfl
  obtain ⟨hrets, hwrote⟩ := wrote_chunks hsound hopen hne hfits
  change Wrote w (writtenWorld w i fd chunks) i slot n _ _ at hwrote
  have hsound₁ : Sound (writtenWorld w i fd chunks) := sound_afterCalls hsound _
  have hopen₁ := hwrote.openRdwr hopen
  have hoffsets : OffsetsBelow (2 ^ 63) ((writtenWorld w i fd chunks).tables i) := by
    rw [hwrote.table]
    exact (longOffsets_run hrun i).update (by dsimp only; omega)
  obtain ⟨hret, hsought⟩ := step_seekBack hsound₁ hoffsets hopen₁ (by omega) hseek
  change soughtWorld w i fd chunks offset whence = _ at hsought
  have hsound₂ : Sound (soughtWorld w i fd chunks offset whence) := hsound₁.step _
  have htable₂ := congrArg (fun w => w.tables i) hsought
  rw [tables_setTable] at htable₂
  have hfs₂ := congrArg VfsWorld.fs hsought
  have hopen₂ := hopen₁.moved htable₂ (by rw [hfs₂]; rfl)
  obtain ⟨hpieces, hcounts, last, hlast⟩ := read_pieces hsound₂ hopen₂ lens
  change finalWorld w i fd chunks offset whence lens = _ at hlast
  have hfs : (finalWorld w i fd chunks offset whence lens).fs =
      (writtenWorld w i fd chunks).fs := by
    rw [hlast]
    exact hfs₂
  have hsize : ((writtenWorld w i fd chunks).fs.nodes n).size =
      max (w.fs.nodes n).size ((w.tables i slot).offset + (chunkBytes chunks).length) := by
    rw [hwrote.node, if_pos rfl]
  constructor
  · exact hrets
  · exact hsize
  · exact hret
  · exact hcounts
  · rw [hpieces, htable₂, setOffset_offset, hfs, hfs₂, ← length_fileBytes, ← List.length_drop,
      take_min_length]
    rfl
  · rw [hfs]
    exact hwrote.starts
  · intro k _ hk
    rw [hfs, hwrote.data, if_neg (by omega)]
  · intro m hm hother
    rw [hfs]
    exact hwrote.others hsound (hopen.pos hsound) (hopen.lt hsound) hfits hm hother
  · have hmoved := (sameElsewhere_update hwrote.tables).trans
      (sameElsewhere_update (congrArg VfsWorld.tables hsought))
    exact hmoved.trans (sameElsewhere_update (congrArg VfsWorld.tables hlast))

/-- Three bytes in two pieces, with an empty one between them. -/
def threeBytes : List Chunk := [⟨fun _ => 7, 2⟩, ⟨fun _ => 0, 0⟩, ⟨fun _ => 9, 1⟩]

theorem roundTrip_threeBytes :
    chunkBytes threeBytes = [7, 7, 9] ∧
      RoundTrip openedWorld 0 0 0 1 0 threeBytes (-3) 1 [2, 5] := by
  have hopen : OpenRdwr openedWorld 0 0 0 1 :=
    ⟨by decide, by decide, by decide, by decide, by decide, by decide⟩
  exact ⟨by decide, roundTrip run_openedWorld hopen (by decide) (by decide) (by decide) [2, 5]⟩

end RoundTrip

end Mcsos.VfsRoundTrip

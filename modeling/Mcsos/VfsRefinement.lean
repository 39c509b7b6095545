import Mcsos.VfsOffsets

namespace Mcsos.VfsRefinement

open Mcsos.CallSystem
open Mcsos.RamfsModel
open Mcsos.FdModel
open Mcsos.VfsInvariant
open Mcsos.ByteFiles
open Mcsos.VfsNames
open Mcsos.VfsOffsets

theorem ext_getD {l m : List UInt8} (hlen : l.length = m.length)
    (h : ∀ k, k < l.length → l.getD k 0 = m.getD k 0) : l = m := by
  refine List.ext_getElem hlen fun k hk hk' => ?_
  have hbyte := h k hk
  rwa [List.getD_eq_getElem _ _ hk, List.getD_eq_getElem _ _ hk'] at hbyte

theorem length_overwrite (content : List UInt8) (offset : Nat) {bytes : List UInt8}
    (h : bytes ≠ []) :
    (overwrite content offset bytes).length =
      max content.length (offset + bytes.length) := by
  rw [overwrite, if_neg h]
  simp only [List.length_append, List.length_take, List.length_replicate, List.length_drop]
  omega

theorem getD_overwrite (content : List UInt8) (offset : Nat) {bytes : List UInt8}
    (h : bytes ≠ []) (k : Nat) :
    (overwrite content offset bytes).getD k 0 =
      if offset ≤ k ∧ k < offset + bytes.length then bytes.getD (k - offset) 0
      else content.getD k 0 := by
  have hgap : (content ++ List.replicate (offset - content.length) 0).getD k 0 =
      content.getD k 0 := by
    rcases Nat.lt_or_ge k content.length with hk | hk
    · rw [List.getD_append _ _ _ _ hk]
    · rw [List.getD_append_right _ _ _ _ hk, List.getD_eq_default _ _ hk,
        List.getD_eq_getElem?_getD, List.getElem?_getD_replicate_default_eq]
  have hfront : ((content ++ List.replicate (offset - content.length) 0).take offset).length =
      offset := by
    simp only [List.length_append, List.length_take, List.length_replicate]
    omega
  rw [overwrite, if_neg h, List.append_assoc]
  rcases Nat.lt_or_ge k offset with hk | hk
  · rw [List.getD_append _ _ _ _ (by omega), getD_take hk, hgap, if_neg (by omega)]
  · rw [List.getD_append_right _ _ _ _ (by omega), hfront]
    rcases Nat.lt_or_ge (k - offset) bytes.length with hlt | hge
    · rw [List.getD_append _ _ _ _ hlt, if_pos (by omega)]
    · rw [List.getD_append_right _ _ _ _ hge, if_neg (by omega)]
      simp only [List.getD_eq_getElem?_getD, List.getElem?_drop]
      congr 2
      omega

theorem length_fileBytes (fs : McsRamfs) (n : Nat) :
    (fileBytes fs n).length = (fs.nodes n).size := by
  simp [fileBytes, dataIndices]

theorem getD_fileBytes (fs : McsRamfs) (n k : Nat) :
    (fileBytes fs n).getD k 0 =
      if k < (fs.nodes n).size then fs.data ((fs.nodes n).dataOffset + k) else 0 := by
  split
  case isTrue hk =>
    rw [List.getD_eq_getElem _ _ (by rwa [length_fileBytes])]
    simp [fileBytes, dataIndices]
  case isFalse hk =>
    exact List.getD_eq_default _ _ (by rw [length_fileBytes]; omega)

section Files

variable {fs fs' : McsRamfs} {files : List ByteFile} {table : McsFdTable}

theorem contentOf_eq (h : Represents fs files) {n : Nat} (hn : n < fs.nodeCount) :
    contentOf files n = fileBytes fs n := by
  rcases n with _ | n
  · rw [contentOf, fileBytes, h.root_size]
    rfl
  · have hlt : n < files.length := by
      have hcount := h.count
      omega
    rw [contentOf, List.getElem?_eq_getElem hlt]
    exact (h.entry n files[n] (List.getElem?_eq_getElem hlt)).content

theorem length_contentOf (h : Represents fs files) {n : Nat}
    (hn : n < fs.nodeCount) : (contentOf files n).length = (fs.nodes n).size := by
  rw [contentOf_eq h hn, length_fileBytes]

theorem represents_setContent (h : Represents fs files) {n : Nat} (hpos : 0 < n)
    (hinv : RamfsInv fs') (hcount : fs'.nodeCount = fs.nodeCount)
    (hname : ∀ m, (fs'.nodes m).name = (fs.nodes m).name)
    (hothers : ∀ m, m < fs.nodeCount → m ≠ n →
      (fs'.nodes m).size = (fs.nodes m).size ∧ fileBytes fs' m = fileBytes fs m) :
    Represents fs' (setContent files n (fileBytes fs' n)) := by
  rcases n with _ | n
  · cases hpos
  · refine ⟨hinv, ?_, ?_, ?_, ?_⟩
    · rw [hcount, h.count, setContent, List.length_modify]
    · rw [hname, h.root_name]
    · rw [(hothers 0 h.inv.count_pos (Nat.succ_ne_zero n).symm).1, h.root_size]
    · intro i file hfile
      rw [setContent, List.getElem?_modify] at hfile
      obtain ⟨old, hold, rfl⟩ := Option.map_eq_some_iff.mp hfile
      obtain ⟨hpadded, hcontent⟩ := h.entry i old hold
      have hi : i + 1 < fs.nodeCount := by
        have hlt := (List.getElem?_eq_some_iff.mp hold).1
        rw [h.count]
        omega
      rcases eq_or_ne n i with rfl | hne
      · rw [if_pos rfl]
        exact ⟨by rwa [hname], rfl⟩
      · rw [if_neg hne]
        refine ⟨by rwa [hname], ?_⟩
        exact hcontent.trans (hothers (i + 1) hi (by omega)).2.symm

theorem represents_truncate (h : Represents fs files) {n : Nat} (hpos : 0 < n) :
    Represents (fs.setSize n 0) (setContent files n []) := by
  have hempty : fileBytes (fs.setSize n 0) n = [] := by
    simp [fileBytes, McsRamfs.setSize, dataIndices]
  rw [← hempty]
  refine represents_setContent h hpos (h.inv.setSize hpos (Nat.zero_le _)) rfl ?_ ?_
  · intro m
    rcases eq_or_ne m n with rfl | hne
    · simp [McsRamfs.setSize]
    · simp [McsRamfs.setSize, hne]
  · intro m _ hne
    simp [fileBytes, McsRamfs.setSize, hne]

/-- The file system after `len` bytes were put into file `n` at an offset. -/
def writtenFs (fs : McsRamfs) (n offset : Nat) (buf : Nat → UInt8) (len : Nat) : McsRamfs :=
  let copied := { fs with data := copyBytes fs.data ((fs.nodes n).dataOffset + offset) buf len }
  if (fs.nodes n).size < offset + len then copied.setSize n (offset + len) else copied

theorem writtenFs_data (fs : McsRamfs) (n offset : Nat) (buf : Nat → UInt8) (len : Nat) :
    (writtenFs fs n offset buf len).data =
      copyBytes fs.data ((fs.nodes n).dataOffset + offset) buf len := by
  rw [writtenFs]
  split <;> rfl

theorem writtenFs_node (fs : McsRamfs) (n offset : Nat) (buf : Nat → UInt8) (len m : Nat) :
    (writtenFs fs n offset buf len).nodes m =
      if m = n then { fs.nodes m with size := max (fs.nodes n).size (offset + len) }
      else fs.nodes m := by
  rw [writtenFs]
  split
  case isTrue hgrow =>
    rcases eq_or_ne m n with rfl | hne
    · rw [if_pos rfl, Nat.max_eq_right (Nat.le_of_lt hgrow)]
      exact Function.update_self ..
    · rw [if_neg hne]
      exact Function.update_of_ne hne ..
  case isFalse hfits =>
    rcases eq_or_ne m n with rfl | hne
    · rw [if_pos rfl, Nat.max_eq_left (Nat.not_lt.mp hfits)]
    · rw [if_neg hne]

theorem ramfsInv_written (h : RamfsInv fs) {n offset len : Nat} (hpos : 0 < n)
    (hfits : offset + len ≤ fileCapacity) (buf : Nat → UInt8) :
    RamfsInv (writtenFs fs n offset buf len) := by
  rw [writtenFs]
  split
  · exact (h.setData _).setSize hpos hfits
  · exact h.setData _

/-- Nothing but zeros stands between the end of the file and the offset, and if there
is such a gap there are bytes to write behind it. -/
def CleanGap (fs : McsRamfs) (n offset len : Nat) : Prop :=
  (fs.nodes n).size < offset →
    0 < len ∧ ∀ k, (fs.nodes n).size ≤ k → k < offset →
      fs.data ((fs.nodes n).dataOffset + k) = 0

theorem fileBytes_written {n offset len : Nat} (hgap : CleanGap fs n offset len)
    (buf : Nat → UInt8) :
    fileBytes (writtenFs fs n offset buf len) n =
      overwrite (fileBytes fs n) offset ((List.range len).map buf) := by
  rcases Nat.eq_zero_or_pos len with rfl | hlen
  · -- Without bytes to write there must be no gap, and nothing is copied.
    have hend : ¬(fs.nodes n).size < offset + 0 := fun hlt => absurd (hgap hlt).1 (Nat.lt_irrefl 0)
    rw [List.range_zero, List.map_nil, overwrite, if_pos rfl, writtenFs, if_neg hend, fileBytes,
      fileBytes]
    refine List.map_congr_left fun i _ => ?_
    exact if_neg (by omega)
  · have hbytes : (List.range len).map buf ≠ [] := by
      intro hnil
      have hzero := congrArg List.length hnil
      simp at hzero
      omega
    refine ext_getD ?_ fun k hk => ?_
    · rw [length_overwrite _ _ hbytes, length_fileBytes, length_fileBytes, writtenFs_node,
        if_pos rfl, List.length_map, List.length_range]
    · rw [length_fileBytes, writtenFs_node, if_pos rfl] at hk
      rw [getD_overwrite _ _ hbytes, getD_fileBytes, getD_fileBytes, writtenFs_node, if_pos rfl,
        if_pos hk, writtenFs_data, copyBytes, List.length_map, List.length_range]
      dsimp only at hk ⊢
      rcases Nat.lt_or_ge k offset with hfront | hback
      · rw [if_neg (by omega), if_neg (by omega)]
        split
        · rfl
        case isFalse hend => exact (hgap (by omega)).2 k (by omega) hfront
      · rcases Nat.lt_or_ge k (offset + len) with hin | hbehind
        · rw [if_pos (by omega), if_pos ⟨hback, hin⟩, List.getD_eq_getElem _ _ (by simp; omega),
            List.getElem_map, List.getElem_range]
          congr 1
          omega
        · rw [if_neg (by omega), if_neg (by omega), if_pos (by omega)]

theorem fileBytes_outside (h : RamfsInv fs) {n m : Nat} (hpos : 0 < n) (hn : n < fs.nodeCount)
    (hm : m < fs.nodeCount) (hne : m ≠ n) (hroot : (fs.nodes 0).size = 0)
    (hnode : fs'.nodes m = fs.nodes m)
    (hdata : ∀ k, k < (fs.nodes n).dataOffset ∨ (fs.nodes n).dataOffset + fileCapacity ≤ k →
      fs'.data k = fs.data k) :
    fileBytes fs' m = fileBytes fs m := by
  rw [fileBytes, fileBytes, hnode]
  refine List.map_congr_left fun i hi => ?_
  obtain ⟨hle, hlt⟩ := mem_dataIndices.mp hi
  rcases Nat.eq_zero_or_pos m with rfl | hmpos
  · omega
  · apply hdata
    have hsize := (h.file m hmpos hm).size
    rw [(h.file m hmpos hm).dataOffset] at hle hlt
    rw [(h.file n hpos hn).dataOffset]
    simp only [fileCapacity] at *
    omega

theorem fileBytes_written_of_ne (h : RamfsInv fs) {n m offset len : Nat} (hpos : 0 < n)
    (hn : n < fs.nodeCount) (hm : m < fs.nodeCount) (hne : m ≠ n) (hroot : (fs.nodes 0).size = 0)
    (hfits : offset + len ≤ fileCapacity) (buf : Nat → UInt8) :
    fileBytes (writtenFs fs n offset buf len) m = fileBytes fs m := by
  refine fileBytes_outside h hpos hn hm hne hroot ?_ fun k hk => ?_
  · rw [writtenFs_node, if_neg hne]
  · rw [writtenFs_data]
    exact if_neg (by omega)

theorem represents_rewritten (h : Represents fs files) {n offset len : Nat} (hpos : 0 < n)
    (hn : n < fs.nodeCount) (hfits : offset + len ≤ fileCapacity) (buf : Nat → UInt8) :
    Represents (writtenFs fs n offset buf len)
      (setContent files n (fileBytes (writtenFs fs n offset buf len) n)) := by
  refine represents_setContent h hpos (ramfsInv_written h.inv hpos hfits buf) ?_ ?_ ?_
  · rw [writtenFs]
    split <;> rfl
  · intro m
    rw [writtenFs_node]
    split <;> rfl
  · intro m hm hne
    refine ⟨?_, fileBytes_written_of_ne h.inv hpos hn hm hne h.root_size hfits buf⟩
    rw [writtenFs_node, if_neg hne]

theorem represents_written (h : Represents fs files) {n offset len : Nat} (hpos : 0 < n)
    (hn : n < fs.nodeCount) (hfits : offset + len ≤ fileCapacity)
    (hgap : CleanGap fs n offset len) (buf : Nat → UInt8) :
    Represents (writtenFs fs n offset buf len)
      (setContent files n
        (overwrite (contentOf files n) offset ((List.range len).map buf))) := by
  rw [contentOf_eq h hn, ← fileBytes_written hgap]
  exact represents_rewritten h hpos hn hfits buf

theorem open_node (h : Represents fs files) (htable : TableInv fs table) {fd : Int} {slot : Nat}
    (hget : mcsFdGet table fd = some slot) :
    (table slot).fs = true ∧
      ((table slot).node = some 0 ∧ (fs.nodes 0).type = .dir ∨
        ∃ n, (table slot).node = some (n + 1) ∧ n + 1 < fs.nodeCount ∧
          ¬(fs.nodes (n + 1)).type = .dir) := by
  obtain ⟨hfs, n, hnode, hn⟩ := htable.node hget
  refine ⟨hfs, ?_⟩
  rcases n with _ | n
  · exact .inl ⟨hnode, h.inv.root⟩
  · refine .inr ⟨n, hnode, hn, ?_⟩
    rw [(h.inv.file (n + 1) (Nat.succ_pos n) hn).type]
    simp

theorem drop_take_fileBytes (fs : McsRamfs) (n offset len : Nat) :
    ((fileBytes fs n).drop offset).take len =
      (dataIndices ((fs.nodes n).dataOffset + offset)
        (min len ((fs.nodes n).size - offset))).map fs.data := by
  refine List.ext_getElem ?_ fun k hk hk' => ?_
  · simp [fileBytes, dataIndices]
  · simp [fileBytes, dataIndices, Nat.add_assoc]

theorem readFile_eq (h : Represents fs files) (htable : TableInv fs table) (fd : Int) (buf : Bool)
    (len : Nat) :
    readFile table files fd buf len =
      ((mcsVfsRead table fs fd buf len).table, (mcsVfsRead table fs fd buf len).ret,
        (mcsVfsRead table fs fd buf len).bytes) := by
  rw [mcsVfsRead, readFile, accessFile]
  split
  · rfl
  · rcases hget : mcsFdGet table fd with _ | slot
    · rfl
    · obtain ⟨hfs, ⟨hnode, hdir⟩ | ⟨n, hnode, hn, hfile⟩⟩ := open_node h htable hget
      · rcases hcan : mcsCanRead (table slot).flags
        · simp [hcan]
        · simp [hcan, hnode, hfs, hdir]
      · rcases hcan : mcsCanRead (table slot).flags
        · simp [hcan]
        · simp only [hcan, hnode, hfs, if_neg hfile, contentOf_eq h hn, drop_take_fileBytes,
            Bool.true_eq_false, if_false]
          rcases Nat.lt_or_ge (table slot).offset (fs.nodes (n + 1)).size with hlt | hend
          · rw [if_neg (Nat.not_le.mpr hlt)]
            simp [dataIndices]
          · rw [if_pos hend, Nat.sub_eq_zero_of_le hend]
            simp [dataIndices, ← hnode, ← hfs]

theorem writeAt_eq (h : RamfsInv fs) (table : McsFdTable) (slot : Nat) (file : McsFile) {n : Nat}
    (hpos : 0 < n) (hn : n < fs.nodeCount) (buf : Nat → UInt8) (len : Nat) :
    writeAt table fs slot file n buf len =
      if fileCapacity < file.offset then
        ⟨Function.update table slot file, fs, McsStatus.einval.code, []⟩
      else if fileCapacity < file.offset + len then
        ⟨Function.update table slot file, fs, McsStatus.enospc.code, []⟩
      else
        ⟨Function.update table slot { file with offset := file.offset + len },
          writtenFs fs n file.offset buf len, len,
          dataIndices ((fs.nodes n).dataOffset + file.offset) len⟩ := by
  rw [writeAt, (h.file n hpos hn).dataCapacity]
  dsimp only
  split
  · rfl
  case isFalse hstart =>
    rcases Nat.lt_or_ge fileCapacity (file.offset + len) with hlong | hfits
    · rw [if_pos hlong, if_pos (by omega)]
    · have hall : min len (fileCapacity - file.offset) = len := by omega
      rw [hall, if_neg (Nat.lt_irrefl len), if_neg (Nat.not_lt.mpr hfits), Function.update_idem]
      rfl

/-- An accepted write that starts behind the end of its file has bytes to write, and
there are only zeros between the end and the start. -/
def CleanWrite (table : McsFdTable) (fs : McsRamfs) (fd : Int) (buf : Option (Nat → UInt8))
    (len : Nat) : Prop :=
  ∀ slot n, (buf.isNone → len = 0) → mcsFdGet table fd = some slot →
    mcsCanWrite (table slot).flags = true → (table slot).flags &&& mcsOAppend = 0 →
    (table slot).node = some n → (table slot).offset + len ≤ (fs.nodes n).dataCapacity →
      CleanGap fs n (table slot).offset len

theorem start_of_write {fd : Int} {buf : Option (Nat → UInt8)} {len slot n : Nat}
    (hbuf : ¬(buf.isNone = true ∧ len ≠ 0)) (hget : mcsFdGet table fd = some slot)
    (hcan : mcsCanWrite (table slot).flags = true) (hnode : (table slot).node = some (n + 1))
    (hn : n + 1 < fs.nodeCount) (h : RamfsInv fs) (hclean : CleanWrite table fs fd buf len) :
    ∃ offset,
      (if (table slot).flags &&& mcsOAppend ≠ 0 then
        { table slot with offset := (fs.nodes (n + 1)).size } else table slot) =
        { table slot with offset := offset } ∧
      (if (table slot).flags &&& mcsOAppend ≠ 0 then (fs.nodes (n + 1)).size
        else (table slot).offset) = offset ∧
      (offset + len ≤ fileCapacity → CleanGap fs (n + 1) offset len) := by
  split
  · exact ⟨_, rfl, rfl, fun _ hlt => absurd hlt (Nat.lt_irrefl _)⟩
  case isFalse happend =>
    refine ⟨_, rfl, rfl, fun hfits => ?_⟩
    refine hclean slot (n + 1) (fun hnone => ?_) hget hcan (not_not.mp happend) hnode ?_
    · exact not_not.mp fun hlen => hbuf ⟨hnone, hlen⟩
    · rwa [(h.file (n + 1) (Nat.succ_pos n) hn).dataCapacity]

theorem writeFile_eq (h : Represents fs files) (htable : TableInv fs table) {fd : Int}
    {buf : Option (Nat → UInt8)} {len : Nat} (hclean : CleanWrite table fs fd buf len) :
    ∃ files', Represents (mcsVfsWrite table fs fd buf len).fs files' ∧
      writeFile table files fd buf len =
        ((mcsVfsWrite table fs fd buf len).table, files',
          (mcsVfsWrite table fs fd buf len).ret) := by
  rw [mcsVfsWrite, writeFile, accessFile]
  split
  · exact ⟨files, h, rfl⟩
  case isFalse hbuf =>
    rcases hget : mcsFdGet table fd with _ | slot
    · exact ⟨files, h, rfl⟩
    · rcases hcan : mcsCanWrite (table slot).flags
      · exact ⟨files, by simpa [hcan] using h, by simp [hcan]⟩
      · obtain ⟨hfs, ⟨hnode, hdir⟩ | ⟨n, hnode, hn, hfile⟩⟩ := open_node h htable hget
        · exact ⟨files, by simpa [hcan, hnode, hfs, hdir] using h, by simp [hcan, hnode, hfs, hdir]⟩
        · obtain ⟨offset, hfile', hoffset, hgap⟩ :=
            start_of_write hbuf hget hcan hnode hn h.inv hclean
          simp only [hcan, hnode, hfs, if_neg hfile, Bool.true_eq_false, if_false,
            length_contentOf h hn]
          rw [← hnode, ← hfs, hfile', hoffset, writeAt_eq h.inv table slot _ (Nat.succ_pos n) hn]
          dsimp only
          split
          · exact ⟨files, h, rfl⟩
          · split
            · exact ⟨files, h, rfl⟩
            case isFalse hfits =>
              have hfits := Nat.not_lt.mp hfits
              exact ⟨_, represents_written h (Nat.succ_pos n) hn hfits (hgap hfits) _, rfl⟩

theorem bmod_eq_self {value : Int} (hlow : -2 ^ 63 ≤ value) (hhigh : value < 2 ^ 63) :
    Int.bmod value (2 ^ 64) = value :=
  Int.bmod_eq_of_le (by omega) (by omega)

theorem seekBase_eq_seekOrigin {file : McsFile} {size : Nat} (hoffset : file.offset < 2 ^ 31)
    (hsize : size ≤ fileCapacity) (whence : Int) :
    seekBase file size whence = seekOrigin file size whence := by
  rw [fileCapacity] at hsize
  have hcurrent : toLong file.offset = file.offset := bmod_eq_self (by omega) (by omega)
  have hend : toLong size = size := bmod_eq_self (by omega) (by omega)
  rw [seekBase, seekOrigin, hcurrent, hend]

/-- A seek goes to an offset in the range of `int`, or fails without an overflow. -/
def SeekInRange (table : McsFdTable) (fs : McsRamfs) (fd offset whence : Int) : Prop :=
  ∀ slot n base, mcsFdGet table fd = some slot → (table slot).node = some n →
    seekBase (table slot) (fs.nodes n).size whence = some base →
      -2 ^ 63 ≤ base + offset ∧ base + offset < 2 ^ 31

theorem SeekInRange.below {fd offset whence : Int}
    (hseek : SeekInRange table fs fd offset whence) :
    SeekBelow (2 ^ 31) table fs fd offset whence := by
  intro slot n base hget hnode hbase
  obtain ⟨hlow, hhigh⟩ := hseek slot n base hget hnode hbase
  rw [bmod_eq_self hlow (by omega)]
  exact hhigh

theorem seekFile_eq (h : Represents fs files) (htable : TableInv fs table)
    (hoffsets : OffsetsBelow (2 ^ 31) table) {fd offset whence : Int}
    (hseek : SeekInRange table fs fd offset whence) :
    seekFile table files fd offset whence = mcsVfsLseek table fs fd offset whence := by
  rw [mcsVfsLseek, seekFile, accessFile]
  rcases hget : mcsFdGet table fd with _ | slot
  · rfl
  · obtain ⟨hfs, ⟨hnode, hdir⟩ | ⟨n, hnode, hn, hfile⟩⟩ := open_node h htable hget
    · simp [hnode, hdir]
    · have hsize := (h.inv.file (n + 1) (Nat.succ_pos n) hn).size
      have horigin := seekBase_eq_seekOrigin (hoffsets slot (mcsFdGet_some hget).1) hsize whence
      have hrange := hseek slot (n + 1)
      simp only [hnode, if_neg hfile, Bool.true_eq_false, if_false, length_contentOf h hn]
      rw [horigin] at hrange ⊢
      rcases hbase : seekOrigin (table slot) (fs.nodes (n + 1)).size whence with _ | base
      · rfl
      · obtain ⟨hlow, hhigh⟩ := hrange base hget hnode hbase
        dsimp only
        rw [bmod_eq_self hlow (by omega)]
        split
        · rfl
        case isFalse hneg =>
          rw [Int.bmod_eq_of_le (by omega) (by omega)]

theorem openFile_eq (h : Represents fs files) {n : Nat} (hn : n < fs.nodeCount)
    (table : McsFdTable) (flags : UInt32) :
    ∃ files', Represents (openDescriptor table fs n flags).2.1 files' ∧
      openFile table files n flags =
        ((openDescriptor table fs n flags).1, files', (openDescriptor table fs n flags).2.2) := by
  have hdir : (fs.nodes n).type = .dir ↔ n = 0 :=
    ⟨h.inv.eq_zero_of_dir hn, fun hzero => hzero ▸ h.inv.root⟩
  simp only [openDescriptor, openFile, length_contentOf h hn, hdir]
  split
  · exact ⟨files, h, rfl⟩
  case isFalse hwrite =>
    rcases mcsFdAlloc_cases table with hnone | ⟨fd, -, -, hsome⟩
    · rw [hnone]
      exact ⟨files, h, rfl⟩
    · rw [hsome]
      dsimp only
      rw [Function.update_self, Function.update_idem]
      split
      · split
        · exact ⟨files, h, rfl⟩
        case isFalse hcan =>
          have hpos : 0 < n := Nat.pos_of_ne_zero fun hzero =>
            hwrite ⟨hzero, (Bool.not_eq_false _).mp hcan⟩
          exact ⟨_, represents_truncate h hpos, rfl⟩
      · exact ⟨files, h, rfl⟩

theorem openPath_eq (h : Represents fs files) (table : McsFdTable) (path : Option (List UInt8))
    (flags : UInt32) :
    ∃ files', Represents (mcsVfsOpen table fs path flags).2.1 files' ∧
      openPath table files path flags =
        ((mcsVfsOpen table fs path flags).1, files', (mcsVfsOpen table fs path flags).2.2) := by
  rcases path with _ | path
  · exact ⟨files, h, rfl⟩
  · obtain ⟨fs', hopen, hfs'⟩ := h.openNode path (defaultFlags flags)
    have hlt := (openNode_inv h.inv (some path) (defaultFlags flags)).2.2
    rw [hopen] at hlt
    simp only [mcsVfsOpen, openPath, hopen]
    generalize lookupOrCreate files (resolve path) (defaultFlags flags) = found at hfs' hlt
    obtain ⟨files', rc | n⟩ := found
    · exact ⟨files', hfs', rfl⟩
    · exact openFile_eq hfs' (hlt n rfl) table _

end Files

/-- The descriptor calls, with seeks in the range of `int`. -/
def DescriptorCall (w : VfsWorld) : VfsCall → Prop
  | .createFile _ => False
  | .seedFile _ _ _ => False
  | .vfsRead _ _ _ len => len < 2 ^ 64
  | .vfsWrite _ _ _ len => len < 2 ^ 64
  | .vfsLseek i fd offset whence => SeekInRange (w.tables i) w.fs fd offset whence
  | _ => True

def descriptorSystem : System VfsWorld VfsCall VfsResult where
  allowed := DescriptorCall
  step w call := some (w.step call)

/-- The condition under which a call does what it does on byte files. -/
def CleanCall (w : VfsWorld) : VfsCall → Prop
  | .vfsWrite i fd buf len => CleanWrite (w.tables i) w.fs fd buf len
  | _ => True

def cleanSystem : System VfsWorld VfsCall VfsResult where
  allowed w call := DescriptorCall w call ∧ CleanCall w call
  step w call := some (w.step call)

structure Simulates (w : VfsWorld) (a : ByteWorld) : Prop where
  inv : VfsInv w
  files : Represents w.fs a.files
  tables : a.tables = w.tables
  offsets : ∀ i, OffsetsBelow (2 ^ 31) (w.tables i)

theorem simulates_start (fs : McsRamfs) (tables : Nat → McsFdTable) :
    Simulates (startWorld fs tables) (noFiles tables) := by
  refine ⟨vfsInv_startWorld fs tables, ⟨ramfsInv_init fs, rfl, ?_, ?_, ?_⟩, rfl, ?_⟩
  · simp [startWorld, mcsRamfsInit]
  · simp [startWorld, mcsRamfsInit, clearedNode, mcsMaxNodes]
  · intro i file hfile
    cases hfile
  · intro i slot hslot
    simp [startWorld, mcsFdTableInit, hslot, closedFile]

section Runs

variable {w : VfsWorld} {a : ByteWorld}

theorem Simulates.smallFiles (h : Simulates w a) :
    ∀ file ∈ a.files, file.content.length ≤ fileCapacity := by
  intro file hfile
  obtain ⟨i, hlt, rfl⟩ := List.getElem_of_mem hfile
  have hi : i + 1 < w.fs.nodeCount := by
    rw [h.files.count]
    omega
  rw [(h.files.entry i _ (List.getElem?_eq_getElem hlt)).content, length_fileBytes]
  exact (h.files.inv.file (i + 1) (Nat.succ_pos i) hi).size

theorem Simulates.change (h : Simulates w a) {i : Nat} {table : McsFdTable} {fs : McsRamfs}
    {files : List ByteFile} (hinv : VfsInv { w.setTable i table with fs := fs })
    (hfiles : Represents fs files)
    (hoffsets : ∀ j, OffsetsBelow (2 ^ 31) ((w.setTable i table).tables j)) :
    Simulates { w.setTable i table with fs := fs } { a.setTable i table with files := files } := by
  refine ⟨hinv, hfiles, ?_, hoffsets⟩
  simp only [ByteWorld.setTable, VfsWorld.setTable, h.tables]

theorem DescriptorCall.below {call : VfsCall} (hcall : DescriptorCall w call) :
    CallBelow (2 ^ 31) w call := by
  cases call with
  | vfsLseek i fd offset whence => exact SeekInRange.below hcall
  | _ => trivial

/-- Every call with a clean gap does on the file system what it does on byte files. -/
theorem Simulates.step (h : Simulates w a) {call : VfsCall} (hcall : DescriptorCall w call)
    (hclean : CleanCall w call) :
    ∃ b, a.step call = some (b, (w.step call).2) ∧ Simulates (w.step call).1 b := by
  have hinv := vfsInv_step h.inv call
  have hoffsets := offsetsBelow_step (by decide) h.inv h.files h.offsets hcall.below
  cases call with
  | createFile path => exact hcall.elim
  | seedFile path data len => exact hcall.elim
  | vfsOpen i path flags =>
      obtain ⟨files, hfiles, hopen⟩ := openPath_eq h.files (w.tables i) path flags
      refine ⟨_, ?_, h.change hinv hfiles hoffsets⟩
      simp only [ByteWorld.step, h.tables, hopen]
      rfl
  | vfsRead i fd buf len =>
      have hread := readFile_eq h.files (h.inv.tables i) fd buf len
      refine ⟨_, ?_, h.change hinv h.files hoffsets⟩
      simp only [ByteWorld.step, h.tables, hread]
      rfl
  | vfsWrite i fd buf len =>
      obtain ⟨files, hfiles, hwrite⟩ := writeFile_eq h.files (h.inv.tables i) hclean
      refine ⟨_, ?_, h.change hinv hfiles hoffsets⟩
      simp only [ByteWorld.step, h.tables, hwrite]
      rfl
  | vfsLseek i fd offset whence =>
      have hseek := seekFile_eq h.files (h.inv.tables i) (h.offsets i) hcall
      refine ⟨_, ?_, h.change hinv h.files hoffsets⟩
      simp only [ByteWorld.step, h.tables, hseek]
      rfl
  | vfsClose i fd =>
      refine ⟨_, ?_, h.change hinv h.files hoffsets⟩
      simp only [ByteWorld.step, h.tables]
      rfl
  | vfsDup i fd =>
      refine ⟨_, ?_, h.change hinv h.files hoffsets⟩
      simp only [ByteWorld.step, h.tables]
      rfl

/-- As long as every accepted write that starts behind the end of its file has bytes to
write and finds only zeros in the gap, all calls return what they return on byte
files. -/
theorem run_byteFiles {fs : McsRamfs} {tables : Nat → McsFdTable}
    {trace : List (VfsCall × VfsResult)}
    (hrun : Run cleanSystem (startWorld fs tables) trace w) :
    ∃ a, SpecRun byteSpec (noFiles tables) trace a := by
  have hstep : ∀ (w : VfsWorld) a call, Simulates w a → cleanSystem.allowed w call →
      ∃ b, byteSpec a call (w.step call).2 b ∧ Simulates (w.step call).1 b := by
    rintro w a call h ⟨hcall, hclean⟩
    obtain ⟨b, hb, hsim⟩ := h.step hcall hclean
    exact ⟨b, ⟨hb, hsim.smallFiles⟩, hsim⟩
  obtain ⟨a, hspec, -⟩ := hrun.simulation_total (fun _ _ => rfl) Simulates hstep
    (simulates_start fs tables)
  exact ⟨a, hspec⟩

/-- A byte is written behind a gap in a new file, and the gap is read. -/
def gapCalls : List VfsCall :=
  [.vfsOpen 0 (some [slash, 0x61]) (mcsOCreat ||| mcsORdwr), .vfsLseek 0 0 2 0,
    .vfsWrite 0 0 (some fun _ => 9) 1, .vfsLseek 0 0 0 0, .vfsRead 0 0 true 8]

def gapTrace : List (VfsCall × VfsResult) :=
  gapCalls.zip [⟨0, []⟩, ⟨2, []⟩, ⟨1, []⟩, ⟨0, []⟩, ⟨3, [0, 0, 9]⟩]

theorem run_gapTrace :
    Run cleanSystem freshWorld gapTrace
      (gapCalls.foldl (fun w call => (w.step call).1) freshWorld) := by
  refine .cons ⟨trivial, trivial⟩ rfl (.cons ⟨?_, trivial⟩ rfl (.cons ⟨?_, ?_⟩ rfl
    (.cons ⟨?_, trivial⟩ rfl (.cons ⟨?_, trivial⟩ rfl (.nil _)))))
  · rintro slot n base - - hbase
    cases hbase
    decide
  · exact Nat.one_lt_two_pow (by decide)
  · rintro slot n - hget - - hnode -
    cases hget
    cases hnode
    rintro -
    refine ⟨Nat.one_pos, fun k _ _ => ?_⟩
    exact ite_self 0
  · rintro slot n base - - hbase
    cases hbase
    decide
  · exact (by decide : 8 < 2 ^ 64)

theorem run_byteFiles_gapTrace : ∃ a, SpecRun byteSpec (noFiles fun _ _ => closedFile) gapTrace a :=
  run_byteFiles run_gapTrace

/-- Bytes are written, discarded by a truncation through another descriptor, and a byte
is written behind where they were. -/
def staleCalls : List VfsCall :=
  [.vfsOpen 0 (some [slash, 0x61]) (mcsOCreat ||| mcsORdwr), .vfsWrite 0 0 (some fun _ => 7) 2,
    .vfsOpen 0 (some [slash, 0x61]) (mcsOTrunc ||| mcsORdwr), .vfsLseek 0 1 2 0,
    .vfsWrite 0 1 (some fun _ => 9) 1, .vfsLseek 0 1 0 0, .vfsRead 0 1 true 8]

def staleTrace : List (VfsCall × VfsResult) :=
  staleCalls.zip [⟨0, []⟩, ⟨2, []⟩, ⟨1, []⟩, ⟨2, []⟩, ⟨1, []⟩, ⟨0, []⟩, ⟨3, [7, 7, 9]⟩]

/-- The discarded bytes are read again, where the byte files have zeros. -/
theorem staleTrace_not_byteFiles :
    Run descriptorSystem freshWorld staleTrace
        (staleCalls.foldl (fun w call => (w.step call).1) freshWorld) ∧
      (noFiles fun _ _ => closedFile).results staleCalls =
        some [⟨0, []⟩, ⟨2, []⟩, ⟨1, []⟩, ⟨2, []⟩, ⟨1, []⟩, ⟨0, []⟩, ⟨3, [0, 0, 9]⟩] ∧
      ¬∃ a, SpecRun byteSpec (noFiles fun _ _ => closedFile) staleTrace a := by
  have hresults : (noFiles fun _ _ => closedFile).results staleCalls =
      some [⟨0, []⟩, ⟨2, []⟩, ⟨1, []⟩, ⟨2, []⟩, ⟨1, []⟩, ⟨0, []⟩, ⟨3, [0, 0, 9]⟩] := rfl
  refine ⟨?_, hresults, ?_⟩
  · refine .cons trivial rfl (.cons ?_ rfl (.cons trivial rfl (.cons ?_ rfl (.cons ?_ rfl
      (.cons ?_ rfl (.cons ?_ rfl (.nil _)))))))
    · exact (by decide : 2 < 2 ^ 64)
    · rintro slot n base - - hbase
      cases hbase
      decide
    · exact (by decide : 1 < 2 ^ 64)
    · rintro slot n base - - hbase
      cases hbase
      decide
    · exact (by decide : 8 < 2 ^ 64)
  · rintro ⟨a, hspec⟩
    have hsame := results_of_specRun hspec
    exact absurd (hresults.symm.trans hsame) (by decide)

end Runs

end Mcsos.VfsRefinement

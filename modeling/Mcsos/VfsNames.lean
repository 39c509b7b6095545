import Mathlib.Data.List.GetD
import Mcsos.ByteFiles

namespace Mcsos.VfsNames

open Mcsos.RamfsModel
open Mcsos.FdModel
open Mcsos.VfsInvariant
open Mcsos.ByteFiles

theorem segmentLength_le (s : List UInt8) : segmentLength s ≤ s.length := by
  induction s with
  | nil => exact Nat.le_refl _
  | cons c s ih =>
      rw [segmentLength]
      split
      · exact Nat.succ_le_succ ih
      · exact Nat.zero_le _

theorem segment_byte {s : List UInt8} {c : UInt8} (h : c ∈ s.take (segmentLength s)) :
    c ≠ slash ∧ c ≠ 0 := by
  induction s with
  | nil => cases h
  | cons d s ih =>
      rw [segmentLength] at h
      split at h
      case isTrue hd =>
        rcases List.mem_cons.mp h with rfl | htail
        · exact hd
        · exact ih htail
      case isFalse hd => cases h

/-- The array holds the name, followed by zeros. -/
def PaddedName (array : Nat → UInt8) (name : List UInt8) : Prop :=
  (∀ k, array k = name.getD k 0) ∧ ∀ c ∈ name, c ≠ 0

theorem getD_take {s : List UInt8} {n i : Nat} (h : i < n) :
    (s.take n).getD i 0 = s.getD i 0 := by
  simp [List.getD_eq_getElem?_getD, h]

theorem mcsStreqN_iff {s : List UInt8} {array : Nat → UInt8} {name : List UInt8}
    (h : PaddedName array name) :
    mcsStreqN s array (segmentLength s) = true ↔ name = s.take (segmentLength s) := by
  have hlen : (s.take (segmentLength s)).length = segmentLength s := by
    rw [List.length_take]
    exact Nat.min_eq_left (segmentLength_le s)
  have hnonzero : ∀ (l : List UInt8), (∀ c ∈ l, c ≠ 0) → ∀ k, k < l.length → l.getD k 0 ≠ 0 := by
    intro l hl k hk
    rw [List.getD_eq_getElem _ _ hk]
    exact hl _ (List.getElem_mem hk)
  simp only [mcsStreqN, Bool.and_eq_true, List.all_eq_true, List.mem_range, beq_iff_eq]
  constructor
  · rintro ⟨hsame, hend⟩
    have hle : name.length ≤ segmentLength s := by
      by_contra hgt
      refine hnonzero name h.2 (segmentLength s) (by omega) ?_
      rw [← h.1, hend]
    have hge : segmentLength s ≤ name.length := by
      by_contra hlt
      refine hnonzero (s.take (segmentLength s)) (fun c hc => (segment_byte hc).2) name.length
        (by omega) ?_
      rw [getD_take (by omega), hsame _ (by omega), h.1]
      exact List.getD_eq_default _ _ (Nat.le_refl _)
    refine List.ext_getElem (by omega) fun k hk hk' => ?_
    have hstep := hsame k (by omega)
    rw [h.1, ← getD_take (n := segmentLength s) (by omega), List.getD_eq_getElem _ _ hk',
      List.getD_eq_getElem _ _ hk] at hstep
    exact hstep.symm
  · rintro rfl
    refine ⟨fun i hi => ?_, ?_⟩
    · rw [h.1, getD_take hi]
    · rw [h.1]
      exact List.getD_eq_default _ _ (Nat.le_of_eq hlen)

theorem paddedName_copy {s : List UInt8} (h : segmentLength s < mcsMaxName) :
    PaddedName (mcsCopyName s (segmentLength s)) (s.take (segmentLength s)) := by
  refine ⟨fun k => ?_, fun c hc => (segment_byte hc).2⟩
  rw [mcsCopyName]
  split
  case isTrue hk => rw [getD_take hk.1]
  case isFalse hk =>
    refine (List.getD_eq_default _ _ ?_).symm
    rw [List.length_take]
    omega

/-- The bytes of a file. -/
def fileBytes (fs : McsRamfs) (n : Nat) : List UInt8 :=
  (dataIndices (fs.nodes n).dataOffset (fs.nodes n).size).map fs.data

structure EntryRep (fs : McsRamfs) (n : Nat) (file : ByteFile) : Prop where
  name : PaddedName (fs.nodes n).name file.name
  content : file.content = fileBytes fs n

/-- The file system holds these files, in the order of their creation. -/
structure Represents (fs : McsRamfs) (files : List ByteFile) : Prop where
  inv : RamfsInv fs
  count : fs.nodeCount = files.length + 1
  root_name : (fs.nodes 0).name 0 = slash
  root_size : (fs.nodes 0).size = 0
  entry : ∀ i file, files[i]? = some file → EntryRep fs (i + 1) file

theorem find?_range_eq_findIdx? {α : Type} {l : List α} {q : Nat → Bool} {p : α → Bool}
    (h : ∀ i a, l[i]? = some a → q i = p a) : (List.range l.length).find? q = l.findIdx? p := by
  induction l generalizing q with
  | nil => rfl
  | cons a l ih =>
      have hhead := h 0 a rfl
      have htail : (List.range l.length).find? (q ∘ Nat.succ) = l.findIdx? p :=
        ih fun i b hb => h (i + 1) b hb
      rw [List.length_cons, List.range_succ_eq_map, List.find?_cons, List.findIdx?_cons, hhead,
        List.find?_map, htail]
      cases p a <;> rfl

section Lookup

variable {fs : McsRamfs} {files : List ByteFile}

theorem Represents.used (h : Represents fs files) {n : Nat} (hn : n < fs.nodeCount) :
    (fs.nodes n).used = true := by
  have hle := h.inv.dataUsed_le
  rw [h.inv.dataUsed_eq, fileCapacity, mcsRamfsDataBytes] at hle
  exact (h.inv.used_iff n (by rw [mcsMaxNodes]; omega)).mpr hn

theorem Represents.findChild (h : Represents fs files) {s : List UInt8}
    (hlen : ¬(segmentLength s = 0 ∨ mcsMaxName ≤ segmentLength s)) :
    mcsFindChild fs 0 s (segmentLength s) =
      match findFile files (s.take (segmentLength s)) with
      | some n => .ok n
      | none => .error .enoent := by
  have hroot : mcsStreqN s (fs.nodes 0).name (segmentLength s) = false := by
    rw [mcsStreqN, Bool.and_eq_false_iff]
    left
    rw [List.all_eq_false]
    refine ⟨0, List.mem_range.mpr (by omega), ?_⟩
    rcases s with _ | ⟨c, s⟩
    · exact absurd (.inl rfl) hlen
    · have hc := (segment_byte (s := c :: s) (c := c) (by
        obtain ⟨k, hk⟩ := Nat.exists_eq_succ_of_ne_zero fun hzero => hlen (.inl hzero)
        rw [hk]
        exact List.mem_cons_self)).1
      rw [h.root_name]
      simpa using hc
  have hentry : ∀ i file, files[i]? = some file →
      ((fs.nodes (i + 1)).used && (fs.nodes (i + 1)).parent == 0 &&
        mcsStreqN s (fs.nodes (i + 1)).name (segmentLength s)) =
        (file.name == s.take (segmentLength s)) := by
    intro i file hfile
    have hi : i + 1 < fs.nodeCount := by
      have hlt := (List.getElem?_eq_some_iff.mp hfile).1
      rw [h.count]
      omega
    rw [h.used hi, (h.inv.file (i + 1) (Nat.succ_pos i) hi).parent, Bool.eq_iff_iff]
    simp [mcsStreqN_iff (h.entry i file hfile).name]
  have hfind : (List.range fs.nodeCount).find? (fun i =>
      (fs.nodes i).used && (fs.nodes i).parent == 0 &&
        mcsStreqN s (fs.nodes i).name (segmentLength s)) =
      findFile files (s.take (segmentLength s)) := by
    rw [h.count, List.range_succ_eq_map, List.find?_cons, hroot, Bool.and_false, List.find?_map,
      findFile]
    exact congrArg (Option.map Nat.succ) (find?_range_eq_findIdx? hentry)
  refine (if_neg hlen).trans ?_
  rcases hfile : findFile files (s.take (segmentLength s)) with _ | n
  · simp only [hfind, hfile]
  · simp only [hfind, hfile]

theorem Represents.findFile_some (h : Represents fs files) {name : List UInt8} {n : Nat}
    (hfind : findFile files name = some n) : 0 < n ∧ n < fs.nodeCount := by
  obtain ⟨i, hi, rfl⟩ := Option.map_eq_some_iff.mp hfind
  obtain ⟨hlt, -⟩ := List.findIdx?_eq_some_iff_getElem.mp hi
  rw [h.count]
  exact ⟨Nat.succ_pos i, by omega⟩

/-- The path walk finds what the path names. -/
theorem Represents.lookup (h : Represents fs files) (path : List UInt8) :
    mcsRamfsLookup fs (some path) = ByteFiles.lookup files (resolve path) := by
  rcases path with _ | ⟨c, s⟩
  · rfl
  · simp only [mcsRamfsLookup, resolve, List.drop_succ_cons, List.drop_zero, List.length_cons]
    by_cases hslash : deref (c :: s) ≠ slash
    · rw [if_pos hslash, if_pos hslash]
      rfl
    · rw [if_neg hslash, if_neg hslash]
      by_cases hlong : mcsMaxPath ≤ mcsStrlen (c :: s)
      · rw [if_pos hlong, if_pos hlong]
        rfl
      · rw [if_neg hlong, if_neg hlong]
        by_cases hroot : deref s = 0
        · rw [if_pos hroot, if_pos hroot]
          rfl
        · -- No file is a directory, so the loop ends in its first round.
          rw [if_neg hroot, if_neg hroot, lookupLoop, if_neg hroot]
          by_cases hlen : segmentLength s = 0 ∨ mcsMaxName ≤ segmentLength s
          · rw [if_pos hlen, if_pos hlen]
            rfl
          · rw [if_neg hlen, if_neg hlen, h.inv.id_eq 0 h.inv.count_pos, h.findChild hlen]
            rcases hfind : findFile files (s.take (segmentLength s)) with _ | n
            · dsimp only
              split <;> simp [ByteFiles.lookup, hfind]
            · obtain ⟨hpos, hn⟩ := h.findFile_some hfind
              have hfile : (fs.nodes n).type ≠ .dir := by
                rw [(h.inv.file n hpos hn).type]
                simp
              dsimp only
              split
              · simp [ByteFiles.lookup, hfind]
              · simp [ByteFiles.lookup, hfind]

theorem mcsStrlen_eq_zero {s : List UInt8} (h : deref s = 0) : mcsStrlen s = 0 := by
  rcases s with _ | ⟨c, s⟩
  · rfl
  · exact if_pos h

theorem Represents.splitParentLeaf (h : Represents fs files) {path : List UInt8}
    {rc : McsStatus} (hlookup : ByteFiles.lookup files (resolve path) = .error rc) :
    mcsSplitParentLeaf fs path =
      match resolve path with
      | .entry _ => .ok (0, path.drop 1, segmentLength (path.drop 1))
      | _ => .error rc := by
  rcases path with _ | ⟨c, s⟩
  · cases hlookup
    rfl
  · simp only [mcsSplitParentLeaf, resolve, List.drop_succ_cons, List.drop_zero,
      List.length_cons] at hlookup ⊢
    by_cases hslash : deref (c :: s) ≠ slash
    · rw [if_pos hslash] at hlookup ⊢
      cases hlookup
      rw [if_pos hslash]
    · rw [if_neg hslash] at hlookup ⊢
      rw [if_neg hslash]
      by_cases hlong : mcsMaxPath ≤ mcsStrlen (c :: s)
      · have hroot : ¬deref s = 0 := by
          intro hzero
          rw [mcsStrlen, mcsStrlen_eq_zero hzero, mcsMaxPath] at hlong
          split at hlong <;> omega
        rw [if_pos hlong] at hlookup ⊢
        cases hlookup
        rw [if_neg hroot, if_pos hlong]
      · rw [if_neg hlong] at hlookup ⊢
        by_cases hroot : deref s = 0
        · rw [if_pos hroot] at hlookup
          cases hlookup
        · rw [if_neg hroot] at hlookup ⊢
          rw [if_neg hroot, if_neg hlong, splitLoop]
          by_cases hlen : segmentLength s = 0 ∨ mcsMaxName ≤ segmentLength s
          · rw [if_pos hlen] at hlookup ⊢
            cases hlookup
            rw [if_pos hlen]
          · rw [if_neg hlen] at hlookup ⊢
            rw [if_neg hlen]
            by_cases hnext : deref (s.drop (segmentLength s)) = 0
            · rw [if_pos hnext, if_pos hnext]
            · rw [if_neg hnext] at hlookup ⊢
              rw [if_neg hnext, h.inv.id_eq 0 h.inv.count_pos, h.findChild hlen]
              rcases hfind : findFile files (s.take (segmentLength s)) with _ | n
              · rw [ByteFiles.lookup, hfind] at hlookup
                cases hlookup
                rfl
              · obtain ⟨hpos, hn⟩ := h.findFile_some hfind
                have hfile : (fs.nodes n).type ≠ .dir := by
                  rw [(h.inv.file n hpos hn).type]
                  simp
                rw [ByteFiles.lookup, hfind] at hlookup
                cases hlookup
                dsimp only
                rw [if_pos hfile]

theorem resolve_entry {path name : List UInt8} (h : resolve path = .entry name) :
    name = (path.drop 1).take (segmentLength (path.drop 1)) ∧
      ¬(segmentLength (path.drop 1) = 0 ∨ mcsMaxName ≤ segmentLength (path.drop 1)) := by
  unfold resolve at h
  dsimp only at h
  split at h
  · cases h
  · split at h
    · cases h
    · split at h
      · cases h
      · split at h
        · cases h
        case isFalse hlen =>
          split at h
          · cases h
            exact ⟨rfl, hlen⟩
          · cases h

theorem Represents.addFile (h : Represents fs files) {array : Nat → UInt8} {name : List UInt8}
    (hname : PaddedName array name) (hroom : files.length < maxFiles) :
    Represents (withFile fs array) (files ++ [⟨name, []⟩]) := by
  have hpos := h.inv.count_pos
  have hused := h.inv.dataUsed_eq
  have hcount := h.count
  refine ⟨h.inv.addFile array ?_, ?_, ?_, ?_, ?_⟩
  · simp only [fileCapacity, mcsRamfsDataBytes, maxFiles] at *
    omega
  · simp [withFile, hcount]
  · have hne : 0 ≠ fs.nodeCount := by omega
    simpa [withFile, hne] using h.root_name
  · have hne : 0 ≠ fs.nodeCount := by omega
    simpa [withFile, hne] using h.root_size
  · intro i file hfile
    rw [List.getElem?_append] at hfile
    split at hfile
    case isTrue hi =>
      obtain ⟨hold, hcontent⟩ := h.entry i file hfile
      have hne : i + 1 ≠ fs.nodeCount := by omega
      refine ⟨?_, ?_⟩
      · simpa [withFile, hne] using hold
      · simpa [fileBytes, withFile, hne] using hcontent
    case isFalse hi =>
      obtain ⟨hlt, rfl⟩ := List.getElem?_eq_some_iff.mp hfile
      rw [List.length_singleton] at hlt
      have heq : i + 1 = fs.nodeCount := by omega
      rw [heq]
      refine ⟨?_, ?_⟩
      · simpa [withFile] using hname
      · simp [fileBytes, withFile, dataIndices]

theorem Represents.allocNode (h : Represents fs files) {s : List UInt8}
    (hlen : ¬(segmentLength s = 0 ∨ mcsMaxName ≤ segmentLength s)) :
    mcsAllocNode fs 0 .file s (segmentLength s) fileCapacity =
      if maxFiles ≤ files.length then (fs, .error .enospc)
      else (withFile fs (mcsCopyName s (segmentLength s)), .ok fs.nodeCount) := by
  have hused := h.inv.dataUsed_eq
  have hle := h.inv.dataUsed_le
  have hcount := h.count
  have hnodes : ¬mcsMaxNodes ≤ fs.nodeCount := by
    simp only [fileCapacity, mcsRamfsDataBytes, mcsMaxNodes] at *
    omega
  rcases mcsAllocNode_cases h.inv s (segmentLength s) with ⟨rc, hfail⟩ | ⟨hroom, hok⟩
  · have hfull : maxFiles ≤ files.length := by
      by_contra hroom
      have hbytes : ¬mcsRamfsDataBytes < (fs.dataUsed + fileCapacity) % 2 ^ 64 := by
        simp only [fileCapacity, mcsRamfsDataBytes, maxFiles] at *
        omega
      rw [mcsAllocNode, if_neg hlen, if_neg hnodes, if_neg fun hfile => hbytes hfile.2] at hfail
      have hresult := congrArg Prod.snd hfail
      cases hresult
    have hbytes : mcsRamfsDataBytes < (fs.dataUsed + fileCapacity) % 2 ^ 64 := by
      simp only [fileCapacity, mcsRamfsDataBytes, maxFiles] at *
      omega
    rw [mcsAllocNode, if_neg hlen, if_neg hnodes, if_pos ⟨rfl, hbytes⟩, if_pos hfull]
  · rw [hok, if_neg]
    simp only [fileCapacity, mcsRamfsDataBytes, maxFiles] at *
    omega

/-- The file that `mcs_ramfs_create_file` adds for a path. -/
def createdFs (fs : McsRamfs) (path : List UInt8) : McsRamfs :=
  withFile fs (mcsCopyName (path.drop 1) (segmentLength (path.drop 1)))

theorem Represents.createFile_absent (h : Represents fs files) {path : List UInt8}
    {rc : McsStatus} (hlookup : ByteFiles.lookup files (resolve path) = .error rc) :
    mcsRamfsCreateFile fs (some path) =
      match resolve path with
      | .entry _ =>
          if maxFiles ≤ files.length then (fs, .error .enospc)
          else (createdFs fs path, .ok fs.nodeCount)
      | _ => (fs, .error rc) := by
  have hsplit := h.splitParentLeaf hlookup
  rw [mcsRamfsCreateFile, (h.lookup path).trans hlookup]
  dsimp only
  rw [hsplit]
  cases htarget : resolve path with
  | invalid code => rfl
  | root => rfl
  | below name => rfl
  | entry name =>
      have hdir : ¬(fs.nodes 0).type ≠ .dir := by simp [h.inv.root]
      dsimp only
      rw [if_neg hdir, h.inv.id_eq 0 h.inv.count_pos, h.allocNode (resolve_entry htarget).2]
      rfl

theorem Represents.created (h : Represents fs files) {path name : List UInt8}
    (htarget : resolve path = .entry name) (hroom : ¬maxFiles ≤ files.length) :
    Represents (createdFs fs path) (files ++ [⟨name, []⟩]) := by
  obtain ⟨hname, hlen⟩ := resolve_entry htarget
  rw [hname]
  exact h.addFile (paddedName_copy (by omega)) (Nat.not_le.mp hroom)

theorem Represents.openNode (h : Represents fs files) (path : List UInt8) (flags : UInt32) :
    ∃ fs', FdModel.openNode fs (some path) flags =
        (fs', (lookupOrCreate files (resolve path) flags).2) ∧
      Represents fs' (lookupOrCreate files (resolve path) flags).1 := by
  rw [FdModel.openNode, h.lookup path, lookupOrCreate]
  rcases hlookup : ByteFiles.lookup files (resolve path) with rc | n
  · dsimp only
    by_cases hcreat : flags &&& mcsOCreat = 0
    · rw [if_pos hcreat]
      refine ⟨fs, ?_, ?_⟩
      · cases resolve path <;> simp [hcreat]
      · cases resolve path <;> simpa [hcreat] using h
    · rw [if_neg hcreat, h.createFile_absent hlookup]
      cases htarget : resolve path with
      | invalid code => exact ⟨fs, rfl, h⟩
      | root => exact ⟨fs, rfl, h⟩
      | below name => exact ⟨fs, rfl, h⟩
      | entry name =>
          dsimp only
          rw [if_neg hcreat, h.count]
          by_cases hfull : maxFiles ≤ files.length
          · rw [if_pos hfull, if_pos hfull]
            exact ⟨fs, rfl, h⟩
          · rw [if_neg hfull, if_neg hfull]
            exact ⟨_, rfl, h.created htarget hfull⟩
  · exact ⟨fs, rfl, h⟩

end Lookup

end Mcsos.VfsNames

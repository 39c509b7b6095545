import Mathlib.Data.List.DropRight
import Mcsos.VfsEffects

namespace Mcsos.VfsNamespace

open Mcsos.CallSystem
open Mcsos.RamfsModel
open Mcsos.FdModel
open Mcsos.VfsInvariant
open Mcsos.ByteFiles
open Mcsos.VfsNames
open Mcsos.VfsRefinement
open Mcsos.VfsDescriptors
open Mcsos.VfsEffects

/-- The string in the name field of a node. -/
def nodeName (node : McsVnode) : List UInt8 :=
  ((List.range mcsMaxName).map node.name).takeWhile (· ≠ 0)

/-- What stands behind the last slash of a path. -/
def lastComponent (path : List UInt8) : List UInt8 := (cString path).rtakeWhile (· ≠ slash)

/-- The path of a call that can make a file. -/
def callPath : VfsCall → Option (List UInt8)
  | .createFile path => path
  | .seedFile path _ _ => path
  | .vfsOpen _ path _ => path
  | _ => none

theorem nodeName_eq {node : McsVnode} {name : List UInt8} (h : PaddedName node.name name)
    (hlen : name.length < mcsMaxName) : nodeName node = name := by
  have hfield : (List.range mcsMaxName).map node.name =
      name ++ List.replicate (mcsMaxName - name.length) 0 := by
    refine ext_getD ?_ fun k hk => ?_
    · rw [List.length_map, List.length_range, List.length_append, List.length_replicate]
      omega
    · rw [List.getD_eq_getElem _ _ hk, List.getElem_map, List.getElem_range, h.1]
      rcases Nat.lt_or_ge k name.length with hin | hout
      · rw [List.getD_append _ _ _ _ hin]
      · rw [List.getD_append_right _ _ _ _ hout, List.getD_eq_default _ _ hout,
          List.getD_eq_getElem?_getD, List.getElem?_getD_replicate_default_eq]
  obtain ⟨rest, hrest⟩ : ∃ rest, mcsMaxName - name.length = rest + 1 :=
    ⟨mcsMaxName - name.length - 1, by omega⟩
  rw [nodeName, hfield, hrest, List.replicate_succ, List.takeWhile_append_of_pos]
  · simp
  · intro c hc
    simpa using h.2 c hc

theorem entry_name {path name : List UInt8} (h : resolve path = .entry name) :
    name.length < mcsMaxName ∧ name ≠ [] ∧ slash ∉ name := by
  obtain ⟨rfl, hlen⟩ := resolve_entry h
  have hlength : ((path.drop 1).take (segmentLength (path.drop 1))).length =
      segmentLength (path.drop 1) := by
    rw [List.length_take, Nat.min_eq_left (segmentLength_le _)]
  refine ⟨by omega, ?_, fun hmem => (segment_byte hmem).1 rfl⟩
  intro hnil
  rw [hnil, List.length_nil] at hlength
  omega

theorem lastComponent_entry {path name : List UInt8} (h : resolve path = .entry name) :
    lastComponent path = name := by
  obtain ⟨-, -, hslash⟩ := entry_name h
  have hkeep : ∀ c ∈ name.reverse, decide (c ≠ slash) = true := by
    intro c hc
    simp only [decide_eq_true_eq]
    rintro rfl
    exact hslash (List.mem_reverse.mp hc)
  rw [lastComponent, cString_of_entry h, List.rtakeWhile, List.reverse_cons,
    List.takeWhile_append_of_pos hkeep, List.takeWhile_cons_of_neg (by simp), List.append_nil,
    List.reverse_reverse]

section Step

variable {w : VfsWorld} {files : List ByteFile}

/-- A call makes no file, or the one that its path names and that did not exist. -/
def MakesFile (w : VfsWorld) (call : VfsCall) (fs' : McsRamfs) : Prop :=
  ∃ path name rc, callPath call = some path ∧ resolve path = .entry name ∧
    mcsRamfsLookup w.fs (some path) = .error rc ∧ fs'.nodeCount = w.fs.nodeCount + 1 ∧
    PaddedName (fs'.nodes w.fs.nodeCount).name name

theorem seededFs_name (fs : McsRamfs) (n : Nat) (src : Nat → UInt8) (len m : Nat) :
    ((seededFs fs n src len).nodes m).name = (fs.nodes m).name := by
  rcases eq_or_ne m n with rfl | hne
  · simp [seededFs, McsRamfs.setSize]
  · simp [seededFs, McsRamfs.setSize, hne]

theorem createFile_makes (h : Represents w.fs files) (path : Option (List UInt8)) :
    (mcsRamfsCreateFile w.fs path).1.nodeCount = w.fs.nodeCount ∨
      ∃ p name rc, path = some p ∧ resolve p = .entry name ∧
        mcsRamfsLookup w.fs (some p) = .error rc ∧
        (mcsRamfsCreateFile w.fs path).1.nodeCount = w.fs.nodeCount + 1 ∧
        PaddedName ((mcsRamfsCreateFile w.fs path).1.nodes w.fs.nodeCount).name name := by
  rcases path with _ | path
  · exact .inl rfl
  · rcases createFile_cases h path with
      ⟨rc, hcall⟩ | ⟨n, -, -, -, hcall⟩ | ⟨name, rc, htarget, hlookup, -, hcall⟩
    · rw [hcall]
      exact .inl rfl
    · rw [hcall]
      exact .inl rfl
    · rw [hcall]
      exact .inr ⟨path, name, rc, rfl, htarget, hlookup, rfl, createdFs_name htarget⟩

theorem step_makes (hinv : VfsInv w) (h : Represents w.fs files) (call : VfsCall) :
    (w.step call).1.fs.nodeCount = w.fs.nodeCount ∨ MakesFile w call (w.step call).1.fs := by
  cases call with
  | createFile path =>
      rcases createFile_makes h path with hsame | ⟨p, name, rc, rfl, hmade⟩
      · exact .inl hsame
      · exact .inr ⟨p, name, rc, rfl, hmade⟩
  | seedFile path data len =>
      change (mcsRamfsSeedFile w.fs path data len).1.nodeCount = w.fs.nodeCount ∨
        MakesFile w _ (mcsRamfsSeedFile w.fs path data len).1
      rcases mcsRamfsSeedFile_fs h path data len with hfs | hfs | ⟨n, -, -, -, -, hfs⟩
      · rw [hfs]
        rcases createFile_makes h path with hsame | ⟨p, name, rc, rfl, hmade⟩
        · exact .inl hsame
        · exact .inr ⟨p, name, rc, rfl, hmade⟩
      · rw [hfs]
        exact .inl rfl
      · rw [hfs]
        rcases createFile_makes h path with
          hsame | ⟨p, name, rc, rfl, htarget, hlookup, hcount, hname⟩
        · exact .inl hsame
        · refine .inr ⟨p, name, rc, rfl, htarget, hlookup, hcount, ?_⟩
          rw [seededFs_name]
          exact hname
  | vfsOpen i path flags =>
      rcases path with _ | path
      · exact .inl rfl
      · change (mcsVfsOpen (w.tables i) w.fs (some path) flags).2.1.nodeCount = w.fs.nodeCount ∨
          MakesFile w _ (mcsVfsOpen (w.tables i) w.fs (some path) flags).2.1
        rcases mcsVfsOpen_fs h path flags with
          hfs | ⟨name, rc, htarget, hlookup, -, -, hfs⟩ | ⟨n, -, -, -, -, -, hfs⟩
        · rw [hfs]
          exact .inl rfl
        · rw [hfs]
          exact .inr ⟨path, name, rc, rfl, htarget, hlookup, rfl, createdFs_name htarget⟩
        · rw [hfs]
          exact .inl rfl
  | vfsWrite i fd buf len =>
      exact .inl (mcsVfsWrite_inv hinv.ramfs (hinv.tables i) fd buf len).2.1
  | vfsRead i fd buf len => exact .inl rfl
  | vfsLseek i fd offset whence => exact .inl rfl
  | vfsClose i fd => exact .inl rfl
  | vfsDup i fd => exact .inl rfl

theorem lookup_missing (h : Represents w.fs files) {path name : List UInt8} {rc : McsStatus}
    (htarget : resolve path = .entry name) (hlookup : mcsRamfsLookup w.fs (some path) = .error rc)
    {x : Nat} (hpos : 0 < x) (hx : x < w.fs.nodeCount) :
    ¬PaddedName (w.fs.nodes x).name name := by
  intro hname
  obtain ⟨k, rfl⟩ : ∃ k, x = k + 1 := ⟨x - 1, by omega⟩
  rw [h.count] at hx
  have hentry := (h.entry k files[k] (List.getElem?_eq_getElem (by omega))).name
  have hsame : files[k].name = name := paddedName_unique hentry hname
  rw [h.lookup, htarget, ByteFiles.lookup] at hlookup
  split at hlookup
  · cases hlookup
  case h_2 hnone =>
    have hnot := List.findIdx?_eq_none_iff.mp (Option.map_eq_none_iff.mp hnone) files[k]
      (List.getElem_mem (by omega))
    rw [hsame, beq_self_eq_true] at hnot
    cases hnot

end Step

/-- The files have the names of entries of the root directory, all different. -/
structure NamesInv (fs : McsRamfs) : Prop where
  root : nodeName (fs.nodes 0) = [slash]
  named : ∀ x, 0 < x → x < fs.nodeCount →
    ∃ path name, resolve path = .entry name ∧ PaddedName (fs.nodes x).name name
  distinct : ∀ x y, 0 < x → x < fs.nodeCount → 0 < y → y < fs.nodeCount →
    ∀ name, PaddedName (fs.nodes x).name name → PaddedName (fs.nodes y).name name → x = y

section Runs

variable {w w₀ : VfsWorld} {trace : List (VfsCall × VfsResult)}

theorem namesInv_init (fs : McsRamfs) : NamesInv (mcsRamfsInit fs) where
  root := by
    have hzero : ((mcsRamfsInit fs).nodes 0).name 0 = slash := by simp [mcsRamfsInit]
    have hone : ((mcsRamfsInit fs).nodes 0).name 1 = 0 := by simp [mcsRamfsInit]
    have hrange : List.range mcsMaxName = 0 :: 1 :: (List.range 30).map (· + 2) := by decide
    rw [nodeName, hrange, List.map_cons, List.map_cons, hzero, hone]
    rfl
  named x hpos hx := absurd hx (Nat.not_lt.mpr hpos)
  distinct x y hpos hx := absurd hx (Nat.not_lt.mpr hpos)

theorem NamesInv.step (h : NamesInv w.fs) (hsound : Sound w) (call : VfsCall) :
    NamesInv (w.step call).1.fs := by
  obtain ⟨files, hfiles⟩ := hsound.represents
  have hkeep : ∀ x, x < w.fs.nodeCount →
      ((w.step call).1.fs.nodes x).name = (w.fs.nodes x).name :=
    fun x hx => step_name hsound.inv hfiles hx call
  have hroot : nodeName ((w.step call).1.fs.nodes 0) = [slash] := by
    rw [nodeName, hkeep 0 hfiles.inv.count_pos]
    exact h.root
  rcases step_makes hsound.inv hfiles call with
    hcount | ⟨path, name, rc, -, htarget, hlookup, hcount, hname⟩
  · refine ⟨hroot, ?_, ?_⟩
    · intro x hpos hx
      rw [hcount] at hx
      rw [hkeep x hx]
      exact h.named x hpos hx
    · intro x y hpos hx hpos' hy
      rw [hcount] at hx hy
      rw [hkeep x hx, hkeep y hy]
      exact h.distinct x y hpos hx hpos' hy
  · have hnew : ∀ x, 0 < x → x < w.fs.nodeCount →
        ∀ other, PaddedName ((w.step call).1.fs.nodes x).name other →
          ¬PaddedName ((w.step call).1.fs.nodes w.fs.nodeCount).name other := by
      intro x hpos hx other hold hother
      obtain rfl := paddedName_unique hother hname
      rw [hkeep x hx] at hold
      exact lookup_missing hfiles htarget hlookup hpos hx hold
    refine ⟨hroot, ?_, ?_⟩
    · intro x hpos hx
      rw [hcount] at hx
      rcases Nat.lt_succ_iff_lt_or_eq.mp hx with hold | rfl
      · rw [hkeep x hold]
        exact h.named x hpos hold
      · exact ⟨path, name, htarget, hname⟩
    · intro x y hpos hx hpos' hy other hother hother'
      rw [hcount] at hx hy
      rcases Nat.lt_succ_iff_lt_or_eq.mp hx with hold | rfl
      · rcases Nat.lt_succ_iff_lt_or_eq.mp hy with hold' | rfl
        · rw [hkeep x hold] at hother
          rw [hkeep y hold'] at hother'
          exact h.distinct x y hpos hold hpos' hold' other hother hother'
        · exact absurd hother' (hnew x hpos hold other hother)
      · rcases Nat.lt_succ_iff_lt_or_eq.mp hy with hold' | rfl
        · exact absurd hother (hnew y hpos' hold' other hother')
        · rfl

theorem namesInv_run {fs : McsRamfs} {tables : Nat → McsFdTable}
    (hrun : Run callSystem (startWorld fs tables) trace w) : NamesInv w.fs := by
  have hstart : Sound (startWorld fs tables) ∧ NamesInv (startWorld fs tables).fs :=
    ⟨sound_start fs tables, namesInv_init fs⟩
  refine (hrun.invariant_total (fun _ _ => rfl) (fun w => Sound w ∧ NamesInv w.fs) ?_ hstart).2
  rintro w call ⟨hsound, hnames⟩ _
  exact ⟨hsound.step call, hnames.step hsound call⟩

theorem run_name (hsound : Sound w₀) (hrun : Run callSystem w₀ trace w) {x : Nat}
    (hx : x < w₀.fs.nodeCount) : (w.fs.nodes x).name = (w₀.fs.nodes x).name := by
  induction hrun with
  | nil w => rfl
  | @cons w u _ call result _ _ hstep _ ih =>
      have hnext : w.step call = (u, result) := Option.some.inj hstep
      obtain ⟨files, hfiles⟩ := hsound.represents
      have hsound' := hsound.step call
      have hname := step_name hsound.inv hfiles hx call
      have hcount := step_nodeCount hsound.inv call
      rw [hnext] at hsound' hname hcount
      exact (ih hsound' (Nat.lt_of_lt_of_le hx hcount)).trans hname

/-- A call of the run made node `x`, for a path that ends in this name. -/
def MadeAs (w₀ : VfsWorld) (trace : List (VfsCall × VfsResult)) (x : Nat) (name : List UInt8) :
    Prop :=
  ∃ before after call result u path,
    trace = before ++ (call, result) :: after ∧ Run callSystem w₀ before u ∧
      u.fs.nodeCount = x ∧ (u.step call).1.fs.nodeCount = x + 1 ∧
      callPath call = some path ∧ lastComponent path = name

theorem run_made (hsound : Sound w₀) (hrun : Run callSystem w₀ trace w) {x : Nat}
    (hold : w₀.fs.nodeCount ≤ x) (hx : x < w.fs.nodeCount) :
    MadeAs w₀ trace x (nodeName (w.fs.nodes x)) := by
  induction hrun with
  | nil w => omega
  | @cons w u v call result trace hallowed hstep hrest ih =>
      have hnext : w.step call = (u, result) := Option.some.inj hstep
      obtain ⟨files, hfiles⟩ := hsound.represents
      have hsound' := hsound.step call
      have hmakes := step_makes hsound.inv hfiles call
      rcases Nat.lt_or_ge x (w.step call).1.fs.nodeCount with hmade | hlater
      · rcases hmakes with hsame | ⟨path, name, rc, hpath, htarget, -, hcount, hname⟩
        · omega
        · obtain rfl : x = w.fs.nodeCount := by omega
          refine ⟨[], trace, call, result, w, path, rfl, .nil w, rfl, hcount, hpath, ?_⟩
          rw [hnext] at hsound' hmade hname
          rw [← run_name hsound' hrest hmade] at hname
          rw [nodeName_eq hname (entry_name htarget).1, lastComponent_entry htarget]
      · rw [hnext] at hsound' hlater
        obtain ⟨before, after, call', result', u', path, rfl, hbefore, hmade⟩ :=
          ih hsound' hlater hx
        exact ⟨(call, result) :: before, after, call', result', u', path, rfl,
          .cons hallowed hstep hbefore, hmade⟩

/-- What creation for a path does to the paths that resolve: the path leads to node `x`,
which another creation finds again, and all other paths lead where they led before or
nowhere. -/
structure CreateLaw (fs fs' : McsRamfs) (path : List UInt8) (x : Nat) : Prop where
  found : mcsRamfsLookup fs' (some path) = .ok x
  again : mcsRamfsCreateFile fs' (some path) = (fs', .ok x)
  kept : ∀ other y, mcsRamfsLookup fs (some other) = .ok y →
    mcsRamfsLookup fs' (some other) = .ok y
  missing : ∀ other rc, cString other ≠ cString path →
    mcsRamfsLookup fs (some other) = .error rc →
      ∃ rc', mcsRamfsLookup fs' (some other) = .error rc'

theorem lookup_root {files : List ByteFile} (h : Represents w.fs files) {path : List UInt8}
    (hlookup : mcsRamfsLookup w.fs (some path) = .ok 0) : resolve path = .root := by
  rw [h.lookup] at hlookup
  unfold ByteFiles.lookup at hlookup
  split at hlookup
  · cases hlookup
  case h_2 htarget => exact htarget
  · split at hlookup
    case h_1 n hfind =>
      cases hlookup
      exact absurd (h.findFile_some hfind).1 (Nat.lt_irrefl 0)
    · cases hlookup
  · split at hlookup <;> cases hlookup

theorem findFile_concat (files : List ByteFile) (name other : List UInt8) :
    findFile (files ++ [⟨name, []⟩]) other =
      (findFile files other).or (if name = other then some (files.length + 1) else none) := by
  rw [findFile, findFile, List.findIdx?_append]
  generalize files.findIdx? (fun file => file.name == other) = found
  rcases found with _ | k
  · rcases eq_or_ne name other with rfl | hne
    · simp
    · simp [hne]
  · rfl

theorem createLaw (hsound : Sound w) {path : List UInt8} {fs' : McsRamfs} {x : Nat}
    (hcreate : mcsRamfsCreateFile w.fs (some path) = (fs', .ok x)) :
    CreateLaw w.fs fs' path x := by
  obtain ⟨files, hfiles⟩ := hsound.represents
  rcases createFile_cases hfiles path with
    ⟨rc, hcall⟩ | ⟨n, -, -, hfound, hcall⟩ | ⟨name, rc, htarget, hlookup, hroom, hcall⟩
  · rw [hcall] at hcreate
    cases hcreate
  · rw [hcall] at hcreate
    cases hcreate
    exact ⟨hfound, hcall, fun _ _ h => h, fun _ rc _ h => ⟨rc, h⟩⟩
  · have hnext : (w.step (.createFile (some path))).1.fs = createdFs w.fs path := by
      simp only [VfsWorld.step, hcall]
    rw [hcall] at hcreate
    cases hcreate
    have hspace : ¬maxFiles ≤ files.length := by
      rw [room_iff hfiles]
      exact Nat.not_lt.mpr hroom
    have hfiles' := hfiles.created htarget hspace
    have habsent : findFile files name = none := by
      rw [hfiles.lookup, htarget, ByteFiles.lookup] at hlookup
      split at hlookup
      · cases hlookup
      · assumption
    have hfound : mcsRamfsLookup (createdFs w.fs path) (some path) = .ok w.fs.nodeCount := by
      rw [hfiles'.lookup, htarget, ByteFiles.lookup, findFile_concat, habsent, if_pos rfl,
        hfiles.count]
      rfl
    refine ⟨hfound, ?_, ?_, ?_⟩
    · have hfile : ¬((createdFs w.fs path).nodes w.fs.nodeCount).type ≠ .file := by
        simp [createdFs, withFile]
      rw [mcsRamfsCreateFile, hfound]
      exact if_neg hfile
    · intro other y hother
      rcases Nat.eq_zero_or_pos y with rfl | hpos
      · rw [hfiles'.lookup, lookup_root hfiles hother]
        rfl
      · rw [← hnext]
        exact step_lookup hsound hpos hother _
    · intro other rc' hne hother
      rw [hfiles.lookup] at hother
      rw [hfiles'.lookup]
      cases htarget' : resolve other with
      | invalid code => exact ⟨code, rfl⟩
      | root =>
          rw [htarget'] at hother
          cases hother
      | entry name' =>
          have hdiffer : name ≠ name' := by
            rintro rfl
            exact hne ((cString_of_entry htarget').trans (cString_of_entry htarget).symm)
          rw [htarget', ByteFiles.lookup] at hother
          rw [ByteFiles.lookup, findFile_concat, if_neg hdiffer, Option.or_none]
          exact ⟨rc', hother⟩
      | below name' =>
          rw [ByteFiles.lookup]
          split
          · exact ⟨_, rfl⟩
          · exact ⟨_, rfl⟩

/-- In every reachable state no two nodes in use share parent and name, every name is the
whole last component of the path for which the node was made, and creation keeps to the
law. -/
theorem run_namespace {fs : McsRamfs} {tables : Nat → McsFdTable}
    (hrun : Run callSystem (startWorld fs tables) trace w) :
    (∀ x y, x < mcsMaxNodes → y < mcsMaxNodes → (w.fs.nodes x).used = true →
        (w.fs.nodes y).used = true → (w.fs.nodes x).parent = (w.fs.nodes y).parent →
        nodeName (w.fs.nodes x) = nodeName (w.fs.nodes y) → x = y) ∧
      nodeName (w.fs.nodes 0) = [slash] ∧
      (∀ x, 0 < x → x < mcsMaxNodes → (w.fs.nodes x).used = true →
        MadeAs (startWorld fs tables) trace x (nodeName (w.fs.nodes x))) ∧
      ∀ path fs' x, mcsRamfsCreateFile w.fs (some path) = (fs', .ok x) →
        CreateLaw w.fs fs' path x := by
  have hsound := sound_run hrun
  have hnames := namesInv_run hrun
  have hcount : ∀ x, x < mcsMaxNodes → (w.fs.nodes x).used = true → x < w.fs.nodeCount :=
    fun x hx hused => (hsound.inv.ramfs.used_iff x hx).mp hused
  have hfile : ∀ x, 0 < x → x < w.fs.nodeCount →
      PaddedName (w.fs.nodes x).name (nodeName (w.fs.nodes x)) ∧
        nodeName (w.fs.nodes x) ≠ [slash] := by
    intro x hpos hx
    obtain ⟨path, name, htarget, hname⟩ := hnames.named x hpos hx
    obtain ⟨hlen, -, hslash⟩ := entry_name htarget
    rw [nodeName_eq hname hlen]
    refine ⟨hname, ?_⟩
    rintro rfl
    exact hslash List.mem_cons_self
  refine ⟨?_, hnames.root, ?_, fun path fs' x hcreate => createLaw hsound hcreate⟩
  · intro x y hx hy husedx husedy _ hname
    have hx' := hcount x hx husedx
    have hy' := hcount y hy husedy
    rcases Nat.eq_zero_or_pos x with rfl | hpos
    · rcases Nat.eq_zero_or_pos y with rfl | hpos'
      · rfl
      · exact absurd (hname.symm.trans hnames.root) (hfile y hpos' hy').2
    · rcases Nat.eq_zero_or_pos y with rfl | hpos'
      · exact absurd (hname.trans hnames.root) (hfile x hpos hx').2
      · have hpadded := (hfile y hpos' hy').1
        rw [← hname] at hpadded
        exact hnames.distinct x y hpos hx' hpos' hy' _ (hfile x hpos hx').1 hpadded
  · intro x hpos hx hused
    exact run_made (sound_start fs tables) hrun hpos (hcount x hx hused)

/-- Two files, one with a name that begins with the name of the other. -/
def prefixCalls : List VfsCall :=
  [.createFile (some [slash, 0x61, 0x62]),
    .vfsOpen 0 (some [slash, 0x61]) (mcsOCreat ||| mcsORdwr)]

def prefixWorld : VfsWorld := prefixCalls.foldl (fun w call => (w.step call).1) freshWorld

theorem run_prefixWorld :
    Run callSystem freshWorld (prefixCalls.zip [⟨0, []⟩, ⟨0, []⟩]) prefixWorld :=
  .cons trivial rfl (.cons trivial rfl (.nil _))

/-- One of them is there already, and `/b` is new. -/
theorem run_namespace_prefixWorld :
    nodeName (prefixWorld.fs.nodes 1) = [0x61, 0x62] ∧ nodeName (prefixWorld.fs.nodes 2) = [0x61] ∧
      CreateLaw prefixWorld.fs prefixWorld.fs [slash, 0x61] 2 ∧
      prefixWorld.fs.nodeCount = 3 ∧
      CreateLaw prefixWorld.fs (mcsRamfsCreateFile prefixWorld.fs (some [slash, 0x62])).1
        [slash, 0x62] 3 := by
  obtain ⟨-, -, -, hlaw⟩ := run_namespace run_prefixWorld
  have hnew : (mcsRamfsCreateFile prefixWorld.fs (some [slash, 0x62])).2 = .ok 3 := rfl
  exact ⟨by decide, by decide, hlaw _ _ _ rfl, by decide, hlaw _ _ _ (Prod.ext rfl hnew)⟩

end Runs

end Mcsos.VfsNamespace

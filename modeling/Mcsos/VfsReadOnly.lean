import Mcsos.VfsEffects

namespace Mcsos.VfsReadOnly

open Mcsos.CallSystem
open Mcsos.RamfsModel
open Mcsos.FdModel
open Mcsos.VfsInvariant
open Mcsos.ByteFiles
open Mcsos.VfsNames
open Mcsos.VfsRefinement
open Mcsos.VfsDescriptors
open Mcsos.VfsEffects

/-- Every descriptor on a file with this name has flags that satisfy `G`. -/
def RightsInv (G : UInt32 → Prop) (name : List UInt8) (w : VfsWorld) : Prop :=
  ∀ i slot n, slot < mcsMaxOpenFiles → (w.tables i slot).used = true →
    (w.tables i slot).node = some n → 0 < n → PaddedName (w.fs.nodes n).name name →
      G (w.tables i slot).flags

/-- A call that opens the name only with flags that satisfy `G`. -/
def OpensWith (G : UInt32 → Prop) (name : List UInt8) (call : VfsCall) : Prop :=
  ∀ i path flags, call = .vfsOpen i (some path) flags → cString path = slash :: name →
    G (defaultFlags flags)

section Rights

variable {G : UInt32 → Prop} {name : List UInt8} {w : VfsWorld}

theorem rightsInv_start (fs : McsRamfs) (tables : Nat → McsFdTable) :
    RightsInv G name (startWorld fs tables) := by
  intro i slot n hslot hused
  simp [startWorld, mcsFdTableInit, hslot, closedFile] at hused

theorem RightsInv.step (h : RightsInv G name w) (hsound : Sound w) {call : VfsCall}
    (hcall : OpensWith G name call) : RightsInv G name (w.step call).1 := by
  obtain ⟨files, hfiles⟩ := hsound.represents
  intro i slot n hslot hused hnode hpos hname
  rcases step_descriptor hfiles call i hslot hused with
    ⟨old, hold, hopen, hflags, hsame⟩ | ⟨path, flags, m, rfl, hflags, hnew, hnamed⟩
  · have hnode' : (w.tables i old).node = some n := hsame.symm.trans hnode
    obtain ⟨-, k, hk, hlt⟩ := hsound.inv.tables i old hold hopen
    obtain rfl : k = n := Option.some.inj (hk.symm.trans hnode')
    rw [hflags]
    rw [step_name hsound.inv hfiles hlt] at hname
    exact h i old k hold hopen hnode' hpos hname
  · obtain rfl : m = n := Option.some.inj (hnew.symm.trans hnode)
    obtain ⟨name', htarget, hpadded⟩ := hnamed hpos
    obtain rfl : name' = name := paddedName_unique hpadded hname
    rw [hflags]
    exact hcall i path flags rfl (cString_of_entry htarget)

theorem rightsInv_run {fs : McsRamfs} {tables : Nat → McsFdTable}
    {trace : List (VfsCall × VfsResult)}
    (hrun : Run callSystem (startWorld fs tables) trace w)
    (hopens : ∀ call result, (call, result) ∈ trace → OpensWith G name call) :
    Sound w ∧ RightsInv G name w := by
  refine (hrun.restrict (OpensWith G name) hopens).invariant_total (fun _ _ => rfl)
    (fun w => Sound w ∧ RightsInv G name w) ?_ ⟨sound_start fs tables, rightsInv_start fs tables⟩
  rintro w call ⟨hsound, hrights⟩ ⟨-, hcall⟩
  exact ⟨hsound.step call, hrights.step hsound hcall⟩

end Rights

/-- The calls on descriptor tables. -/
def descriptorCallSystem : System VfsWorld VfsCall VfsResult where
  allowed _ call := (callTable call).isSome = true
  step w call := some (w.step call)

/-- No `open` of the path asks for the right to write. -/
def OpenedReadOnly (p : List UInt8) (trace : List (VfsCall × VfsResult)) : Prop :=
  ∀ i path flags result, (.vfsOpen i (some path) flags, result) ∈ trace →
    cString path = cString p → flags &&& mcsOWronly = 0 ∧ flags &&& mcsORdwr = 0

section ReadOnly

variable {w w₁ w₂ : VfsWorld} {p name : List UInt8} {n : Nat}

theorem sameFile_step (hsound : Sound w)
    (hrights : RightsInv (fun flags => mcsCanWrite flags = false) name w)
    (hpos : 0 < n) (hn : n < w.fs.nodeCount) (hname : PaddedName (w.fs.nodes n).name name)
    {call : VfsCall} (htable : (callTable call).isSome = true)
    (hcall : OpensWith (fun flags => mcsCanWrite flags = false) name call) :
    SameFile w.fs (w.step call).1.fs n := by
  obtain ⟨files, hfiles⟩ := hsound.represents
  rcases step_file hsound.inv hfiles hn call with hsame | hchange
  · exact hsame
  · generalize (w.step call).1.fs = fs' at hchange
    cases hchange with
    | truncate hlookup htrunc hcan =>
        obtain ⟨name', htarget, hpadded⟩ := lookup_named hfiles hpos hlookup
        obtain rfl : name' = name := paddedName_unique hpadded hname
        have hcannot := hcall _ _ _ rfl (cString_of_entry htarget)
        exact absurd (hcan.symm.trans hcannot) Bool.noConfusion
    | @write i fd buf len slot hget hcan hnode hfits =>
        obtain ⟨hslot, hused⟩ := mcsFdGet_some hget
        have hcannot := hrights i slot n hslot hused hnode hpos hname
        exact absurd (hcan.symm.trans hcannot) Bool.noConfusion
    | seed => cases htable

/-- What a run keeps of a file to which nobody has the right to write. -/
structure Untouched (w₁ : VfsWorld) (p name : List UInt8) (n : Nat) (w : VfsWorld) : Prop where
  sound : Sound w
  rights : RightsInv (fun flags => mcsCanWrite flags = false) name w
  found : mcsRamfsLookup w.fs (some p) = .ok n
  same : SameFile w₁.fs w.fs n

theorem Untouched.step (h : Untouched w₁ p name n w) (htarget : resolve p = .entry name)
    (hpos : 0 < n) {call : VfsCall} (htable : (callTable call).isSome = true)
    (hcall : OpensWith (fun flags => mcsCanWrite flags = false) name call) :
    Untouched w₁ p name n (w.step call).1 := by
  obtain ⟨files, hfiles⟩ := h.sound.represents
  have hn := mcsRamfsLookup_lt h.sound.inv.ramfs.count_pos h.found
  obtain ⟨name', htarget', hname⟩ := lookup_named hfiles hpos h.found
  obtain rfl : name' = name := PathTarget.entry.inj (htarget'.symm.trans htarget)
  exact ⟨h.sound.step call, h.rights.step h.sound hcall, step_lookup h.sound hpos h.found call,
    h.same.trans (sameFile_step h.sound h.rights hpos hn hname htable hcall)⟩

/-- Whatever was called before, and whatever calls on descriptors come after: as long as no
`open` of the path asked for the right to write, the file that it leads to stays the same. -/
theorem run_readOnly {fs : McsRamfs} {tables : Nat → McsFdTable}
    {before after : List (VfsCall × VfsResult)}
    (hbefore : Run callSystem (startWorld fs tables) before w₁)
    (hafter : Run descriptorCallSystem w₁ after w₂) (hopens : OpenedReadOnly p (before ++ after))
    (hfound : mcsRamfsLookup w₁.fs (some p) = .ok n) (hfile : (w₁.fs.nodes n).type = .file) :
    mcsRamfsLookup w₂.fs (some p) = .ok n ∧ (w₂.fs.nodes n).size = (w₁.fs.nodes n).size ∧
      fileBytes w₂.fs n = fileBytes w₁.fs n := by
  obtain ⟨files, hfiles⟩ := (sound_run hbefore).represents
  have hpos : 0 < n := hfiles.inv.pos_of_file (by rw [hfile]; simp)
  obtain ⟨name, htarget, -⟩ := lookup_named hfiles hpos hfound
  have hcalls : ∀ call result, (call, result) ∈ before ++ after →
      OpensWith (fun flags => mcsCanWrite flags = false) name call := by
    rintro call result hmem i path flags rfl hpath
    obtain ⟨hwronly, hrdwr⟩ := hopens i path flags result hmem
      (hpath.trans (cString_of_entry htarget).symm)
    rw [mcsCanWrite_defaultFlags, mcsCanWrite, hwronly, hrdwr]
    rfl
  obtain ⟨hsound, hrights⟩ := rightsInv_run hbefore
    fun call result hmem => hcalls call result (List.mem_append_left _ hmem)
  have huntouched : Untouched w₁ p name n w₂ := by
    refine (hafter.restrict _ fun call result hmem =>
      hcalls call result (List.mem_append_right _ hmem)).invariant_total (fun _ _ => rfl)
        (Untouched w₁ p name n) ?_ ⟨hsound, hrights, hfound, .refl _ n⟩
    rintro w call h ⟨htable, hcall⟩
    exact h.step htarget hpos htable hcall
  exact ⟨huntouched.found, congrArg McsVnode.size huntouched.same.node, huntouched.same.bytes⟩

/-- A file is seeded, and then read and refused for truncation and writing, while another
file is written through the number that was its descriptor. -/
def readOnlyCalls : List VfsCall :=
  [.vfsOpen 0 (some [slash, 0x61]) mcsOTrunc, .vfsOpen 0 (some [slash, 0x61]) mcsOAppend,
    .vfsWrite 0 0 (some fun _ => 9) 1, .vfsClose 0 0,
    .vfsOpen 0 (some [slash, 0x62]) (mcsOCreat ||| mcsORdwr), .vfsWrite 0 0 (some fun _ => 9) 1]

def seededWorld : VfsWorld :=
  (freshWorld.step (.seedFile (some [slash, 0x61]) (some fun _ => 7) 2)).1

theorem run_readOnly_readOnlyCalls :
    let w := readOnlyCalls.foldl (fun w call => (w.step call).1) seededWorld
    fileBytes w.fs 1 = fileBytes seededWorld.fs 1 ∧ fileBytes w.fs 2 = [9] := by
  refine ⟨?_, by decide⟩
  have hbefore : Run callSystem freshWorld
      [(.seedFile (some [slash, 0x61]) (some fun _ => 7) 2, ⟨0, []⟩)] seededWorld :=
    .cons trivial rfl (.nil _)
  have hafter : Run descriptorCallSystem seededWorld
      (readOnlyCalls.zip [⟨-13, []⟩, ⟨0, []⟩, ⟨-13, []⟩, ⟨0, []⟩, ⟨0, []⟩, ⟨1, []⟩])
      (readOnlyCalls.foldl (fun w call => (w.step call).1) seededWorld) :=
    .cons rfl rfl (.cons rfl rfl (.cons rfl rfl (.cons rfl rfl (.cons rfl rfl
      (.cons rfl rfl (.nil _))))))
  refine (run_readOnly (p := [slash, 0x61]) (n := 1) hbefore hafter ?_ rfl rfl).2.2
  intro i path flags result hmem hpath
  simp [readOnlyCalls] at hmem
  rcases hmem with ⟨⟨-, rfl, rfl⟩, -⟩ | ⟨⟨-, rfl, rfl⟩, -⟩ | ⟨⟨-, rfl, rfl⟩, -⟩
  · decide
  · decide
  · exact absurd hpath (by decide)

end ReadOnly

end Mcsos.VfsReadOnly

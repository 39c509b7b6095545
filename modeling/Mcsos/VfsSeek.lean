import Mcsos.VfsEffects

namespace Mcsos.VfsSeek

open Mcsos.CallSystem
open Mcsos.RamfsModel
open Mcsos.FdModel
open Mcsos.VfsInvariant
open Mcsos.ByteFiles
open Mcsos.VfsNames
open Mcsos.VfsOffsets
open Mcsos.VfsRefinement
open Mcsos.VfsDescriptors
open Mcsos.VfsEffects

section Runs

variable {w : VfsWorld}

theorem longOffsets_run {fs : McsRamfs} {tables : Nat → McsFdTable}
    {trace : List (VfsCall × VfsResult)}
    (hrun : Run callSystem (startWorld fs tables) trace w) (i : Nat) :
    OffsetsBelow (2 ^ 63) (w.tables i) := by
  have hcapacity : fileCapacity < 2 ^ 63 := by decide
  have hcall : ∀ (w : VfsWorld) call, CallBelow (2 ^ 63) w call := by
    intro w call
    cases call with
    | vfsLseek i fd offset whence =>
        intro slot n base _ _ _
        have hnext : Int.bmod (base + offset) (2 ^ 64) < (2 ^ 64 + 1) / 2 :=
          Int.bmod_lt (by decide)
        omega
    | _ => trivial
  have hstart : Sound (startWorld fs tables) ∧
      ∀ i, OffsetsBelow (2 ^ 63) ((startWorld fs tables).tables i) :=
    ⟨sound_start fs tables, fun i => offsetsBelow_init hcapacity (tables i)⟩
  refine (hrun.invariant_total (fun _ _ => rfl)
    (fun w => Sound w ∧ ∀ i, OffsetsBelow (2 ^ 63) (w.tables i)) ?_ hstart).2 i
  rintro w call ⟨hsound, hoffsets⟩ _
  obtain ⟨files, hfiles⟩ := hsound.represents
  exact ⟨hsound.step call,
    offsetsBelow_step hcapacity hsound.inv hfiles hoffsets (hcall w call)⟩

end Runs

/-- Where a seek is to go, in exact integers. -/
def seekTarget (file : McsFile) (size : Nat) (offset whence : Int) : Option Int :=
  (seekOrigin file size whence).map (· + offset)

/-- A seek on file `n`, in slot `slot`: a result that is not negative is the exact target and
the new offset, a negative one leaves the offset alone, and the addition does not overflow. -/
structure ExactSeek (w : VfsWorld) (i : Nat) (fd offset whence : Int) (slot n : Nat) : Prop where
  reached : 0 ≤ (w.step (.vfsLseek i fd offset whence)).2.ret →
    seekTarget (w.tables i slot) (w.fs.nodes n).size offset whence =
        some (w.step (.vfsLseek i fd offset whence)).2.ret ∧
      (((w.step (.vfsLseek i fd offset whence)).1.tables i slot).offset : Int) =
        (w.step (.vfsLseek i fd offset whence)).2.ret
  stayed : (w.step (.vfsLseek i fd offset whence)).2.ret < 0 →
    ((w.step (.vfsLseek i fd offset whence)).1.tables i slot).offset = (w.tables i slot).offset
  noOverflow : NoSeekOverflow w i fd offset whence

/-- The target fits in the `int` that is returned, or it is where the descriptor already
is and the result is negative. -/
def FitsResult (file : McsFile) (target : Int) : Prop :=
  target < 2 ^ 31 ∨ target = file.offset ∧ 2 ^ 31 ≤ target % 2 ^ 32

section Seek

variable {w : VfsWorld} {fs : McsRamfs} {table : McsFdTable} {fd offset whence : Int}
  {i slot n : Nat}

theorem seekBase_of_long {file : McsFile} {size : Nat} (hoffset : file.offset < 2 ^ 63)
    (hsize : size ≤ 256) (whence : Int) :
    seekBase file size whence = seekOrigin file size whence := by
  have hcurrent : toLong file.offset = file.offset := bmod_eq_self (by omega) (by omega)
  have hend : toLong size = size := bmod_eq_self (by omega) (by omega)
  rw [seekBase, seekOrigin, hcurrent, hend]

theorem seekOrigin_range {file : McsFile} {size : Nat} {base : Int}
    (hoffset : file.offset < 2 ^ 63) (hsize : size ≤ 256)
    (hbase : seekOrigin file size whence = some base) : 0 ≤ base ∧ base < 2 ^ 63 := by
  unfold seekOrigin at hbase
  split at hbase
  · cases hbase
    decide
  · split at hbase
    · cases hbase
      omega
    · split at hbase
      · cases hbase
        omega
      · cases hbase

theorem mcsVfsLseek_noBase (offset : Int) (hget : mcsFdGet table fd = some slot)
    (hnode : (table slot).node = some n)
    (hbase : seekBase (table slot) (fs.nodes n).size whence = none) :
    (mcsVfsLseek table fs fd offset whence).1 = table ∧
      (mcsVfsLseek table fs fd offset whence).2 < 0 := by
  rw [mcsVfsLseek, hget]
  dsimp only
  rw [hnode]
  dsimp only
  split
  · exact ⟨rfl, code_neg .eisdir⟩
  · rw [hbase]
    exact ⟨rfl, code_neg .einval⟩

theorem mcsVfsLseek_target (h : RamfsInv fs) (hoffsets : OffsetsBelow (2 ^ 63) table) {target : Int}
    (hget : mcsFdGet table fd = some slot) (hnode : (table slot).node = some n) (hpos : 0 < n)
    (hn : n < fs.nodeCount)
    (htarget : seekTarget (table slot) (fs.nodes n).size offset whence = some target)
    (hlow : -2 ^ 63 ≤ target) (hhigh : target < 2 ^ 63) :
    mcsVfsLseek table fs fd offset whence =
      if target < 0 then (table, McsStatus.einval.code)
      else
        (Function.update table slot { table slot with offset := target.toNat },
          Int.bmod target (2 ^ 32)) := by
  obtain ⟨base, hbase, rfl⟩ := Option.map_eq_some_iff.mp htarget
  rw [← seekBase_of_long (hoffsets slot (mcsFdGet_some hget).1) (h.file n hpos hn).size] at hbase
  rw [mcsVfsLseek_file h hget hnode hpos hn hbase, bmod_eq_self hlow hhigh]

theorem bmod_int_lt (value : Int) : Int.bmod value (2 ^ 32) < 2 ^ 31 := by
  have hlt : Int.bmod value (2 ^ 32) < (2 ^ 32 + 1) / 2 := Int.bmod_lt (by decide)
  omega

theorem bmod_int_neg_iff (value : Int) :
    Int.bmod value (2 ^ 32) < 0 ↔ 2 ^ 31 ≤ value % 2 ^ 32 := by
  rw [Int.bmod_def]
  split <;> omega

theorem step_seek (hsound : Sound w) (hoffsets : OffsetsBelow (2 ^ 63) (w.tables i)) {target : Int}
    (hget : mcsFdGet (w.tables i) fd = some slot) (hnode : (w.tables i slot).node = some n)
    (hpos : 0 < n) (hn : n < w.fs.nodeCount)
    (htarget : seekTarget (w.tables i slot) (w.fs.nodes n).size offset whence = some target)
    (hlow : -2 ^ 63 ≤ target) (hhigh : target < 2 ^ 63) :
    (w.step (.vfsLseek i fd offset whence)).2.ret =
        (if target < 0 then McsStatus.einval.code else Int.bmod target (2 ^ 32)) ∧
      ((w.step (.vfsLseek i fd offset whence)).1.tables i slot).offset =
        if target < 0 then (w.tables i slot).offset else target.toNat := by
  rw [VfsWorld.step, tables_setTable,
    mcsVfsLseek_target hsound.inv.ramfs hoffsets hget hnode hpos hn htarget hlow hhigh]
  rcases Int.lt_or_le target 0 with hneg | hreached
  · simp only [if_pos hneg, and_self]
  · simp only [if_neg (Int.not_lt.mpr hreached), Function.update_self, and_self]

theorem noSeekOverflow_iff (hget : mcsFdGet (w.tables i) fd = some slot)
    (hnode : (w.tables i slot).node = some n) :
    NoSeekOverflow w i fd offset whence ↔
      ∀ base, seekBase (w.tables i slot) (w.fs.nodes n).size whence = some base →
        -2 ^ 63 ≤ base + offset ∧ base + offset < 2 ^ 63 := by
  constructor
  · intro h base hbase
    exact h slot n base hget hnode hbase
  · intro h slot' n' base hget' hnode' hbase
    obtain rfl : slot = slot' := Option.some.inj (hget.symm.trans hget')
    obtain rfl : n = n' := Option.some.inj (hnode.symm.trans hnode')
    exact h base hbase

theorem ExactSeek.fits (hexact : ExactSeek w i fd offset whence slot n) (hsound : Sound w)
    (hoffsets : OffsetsBelow (2 ^ 63) (w.tables i)) {target : Int}
    (hget : mcsFdGet (w.tables i) fd = some slot) (hnode : (w.tables i slot).node = some n)
    (hpos : 0 < n) (hn : n < w.fs.nodeCount)
    (htarget : seekTarget (w.tables i slot) (w.fs.nodes n).size offset whence = some target) :
    FitsResult (w.tables i slot) target := by
  obtain ⟨base, horigin, rfl⟩ := Option.map_eq_some_iff.mp htarget
  have hbase := seekBase_of_long (hoffsets slot (mcsFdGet_some hget).1)
    (hsound.inv.ramfs.file n hpos hn).size whence
  obtain ⟨hmin, hmax⟩ :=
    (noSeekOverflow_iff hget hnode).mp hexact.noOverflow base (hbase.trans horigin)
  obtain ⟨hret, hnew⟩ := step_seek hsound hoffsets hget hnode hpos hn htarget hmin hmax
  rcases Int.lt_or_le (base + offset) (2 ^ 31) with hfits | hlarge
  · exact .inl hfits
  · rw [if_neg (by omega)] at hret hnew
    rcases Int.lt_or_le (Int.bmod (base + offset) (2 ^ 32)) 0 with hneg | hnonneg
    · have hstayed := hexact.stayed (by rw [hret]; exact hneg)
      rw [hnew] at hstayed
      exact .inr ⟨by omega, (bmod_int_neg_iff _).mp hneg⟩
    · -- a result that is not negative is below the target
      obtain ⟨hreached, -⟩ := hexact.reached (by rw [hret]; exact hnonneg)
      rw [htarget, hret] at hreached
      have heq := Option.some.inj hreached
      have hlt := bmod_int_lt (base + offset)
      omega

theorem exactSeek_of_noBase (hget : mcsFdGet (w.tables i) fd = some slot)
    (hnode : (w.tables i slot).node = some n)
    (hbase : seekBase (w.tables i slot) (w.fs.nodes n).size whence = none) :
    ExactSeek w i fd offset whence slot n := by
  obtain ⟨htable, hret⟩ := mcsVfsLseek_noBase offset hget hnode hbase
  refine ⟨fun hnonneg => absurd hret (Int.not_lt.mpr hnonneg), fun _ => ?_, ?_⟩
  · rw [VfsWorld.step, tables_setTable, htable]
  · rw [noSeekOverflow_iff hget hnode, hbase]
    intro base hsome
    cases hsome

theorem exactSeek_of_fits (hsound : Sound w) (hoffsets : OffsetsBelow (2 ^ 63) (w.tables i))
    {target : Int}
    (hget : mcsFdGet (w.tables i) fd = some slot) (hnode : (w.tables i slot).node = some n)
    (hpos : 0 < n) (hn : n < w.fs.nodeCount) (hlow : -2 ^ 63 ≤ offset)
    (htarget : seekTarget (w.tables i slot) (w.fs.nodes n).size offset whence = some target)
    (hfits : FitsResult (w.tables i slot) target) : ExactSeek w i fd offset whence slot n := by
  have hold := hoffsets slot (mcsFdGet_some hget).1
  have hsize := (hsound.inv.ramfs.file n hpos hn).size
  obtain ⟨base, horigin, hsum⟩ := Option.map_eq_some_iff.mp htarget
  obtain ⟨hbaseLow, -⟩ := seekOrigin_range hold hsize horigin
  have hmin : -2 ^ 63 ≤ target := by omega
  have hmax : target < 2 ^ 63 := by
    rcases hfits with hsmall | ⟨hsame, -⟩ <;> omega
  obtain ⟨hret, hnew⟩ := step_seek hsound hoffsets hget hnode hpos hn htarget hmin hmax
  constructor
  · intro hnonneg
    rw [htarget, hret, hnew]
    rw [hret] at hnonneg
    split at hnonneg
    · exact absurd (code_neg .einval) (Int.not_lt.mpr hnonneg)
    case isFalse hpositive =>
      have hsmall : target < 2 ^ 31 := hfits.resolve_right fun h =>
        absurd ((bmod_int_neg_iff _).mpr h.2) (Int.not_lt.mpr hnonneg)
      rw [if_neg hpositive, if_neg hpositive, Int.bmod_eq_of_le (by omega) (by omega)]
      exact ⟨rfl, by omega⟩
  · intro hneg
    rw [hnew]
    rw [hret] at hneg
    split
    · rfl
    case isFalse hpositive =>
      rw [if_neg hpositive] at hneg
      rcases hfits with hsmall | ⟨hsame, -⟩
      · rw [Int.bmod_eq_of_le (by omega) (by omega)] at hneg
        exact absurd hneg hpositive
      · rw [hsame]
        exact Int.toNat_natCast _
  · rw [noSeekOverflow_iff hget hnode, seekBase_of_long hold hsize, horigin]
    intro base' hsome
    cases hsome
    rw [← hsum] at hmin hmax
    exact ⟨hmin, hmax⟩

/-- In every reachable state, a seek on a file is exact exactly if its target fits in the
result, or the descriptor is already there and the result is negative. -/
theorem exactSeek_iff {tables : Nat → McsFdTable} {trace : List (VfsCall × VfsResult)}
    (hrun : Run callSystem (startWorld fs tables) trace w)
    (hget : mcsFdGet (w.tables i) fd = some slot) (hnode : (w.tables i slot).node = some n)
    (hfile : (w.fs.nodes n).type = .file) (hlong : -2 ^ 63 ≤ offset ∧ offset < 2 ^ 63) :
    ExactSeek w i fd offset whence slot n ↔
      ∀ target, seekTarget (w.tables i slot) (w.fs.nodes n).size offset whence = some target →
        FitsResult (w.tables i slot) target := by
  have hsound := sound_run hrun
  have hoffsets := longOffsets_run hrun i
  have hpos : 0 < n := hsound.inv.ramfs.pos_of_file (by rw [hfile]; simp)
  obtain ⟨-, m, hm, hn⟩ := (hsound.inv.tables i).node hget
  obtain rfl : n = m := Option.some.inj (hnode.symm.trans hm)
  constructor
  · intro hexact target htarget
    exact hexact.fits hsound hoffsets hget hnode hpos hn htarget
  · intro hfits
    rcases htarget : seekTarget (w.tables i slot) (w.fs.nodes n).size offset whence with _ | target
    · apply exactSeek_of_noBase hget hnode
      rw [seekBase_of_long (hoffsets slot (mcsFdGet_some hget).1)
        (hsound.inv.ramfs.file n hpos hn).size]
      exact Option.map_eq_none_iff.mp htarget
    · exact exactSeek_of_fits hsound hoffsets hget hnode hpos hn hlong.1 htarget
        (hfits target htarget)

/-- A new file, open in slot 0. -/
def openedWorld : VfsWorld :=
  (freshWorld.step (.vfsOpen 0 (some [slash, 0x61]) (mcsOCreat ||| mcsORdwr))).1

theorem run_openedWorld :
    Run callSystem freshWorld
      [(.vfsOpen 0 (some [slash, 0x61]) (mcsOCreat ||| mcsORdwr), ⟨0, []⟩)] openedWorld :=
  .cons trivial rfl (.nil _)

theorem exactSeek_iff_openedWorld : ExactSeek openedWorld 0 0 5 0 0 1 := by
  refine (exactSeek_iff run_openedWorld (by decide) (by decide) (by decide)
    (by decide)).mpr fun target htarget => .inl ?_
  cases htarget
  decide

/-- After a seek to `2 ^ 32`. -/
def farWorld : VfsWorld := (openedWorld.step (.vfsLseek 0 0 (2 ^ 32) 0)).1

/-- A seek to `2 ^ 31` moves the descriptor and returns a negative number, one to `2 ^ 32`
returns zero, and one relative to that offset overflows. -/
theorem not_exactSeek_far :
    ((openedWorld.step (.vfsLseek 0 0 (2 ^ 31) 0)).2.ret = -2 ^ 31 ∧
        ¬ExactSeek openedWorld 0 0 (2 ^ 31) 0 0 1) ∧
      ((openedWorld.step (.vfsLseek 0 0 (2 ^ 32) 0)).2.ret = 0 ∧
        ¬ExactSeek openedWorld 0 0 (2 ^ 32) 0 0 1) ∧
      ¬ExactSeek farWorld 0 0 (2 ^ 63 - 1) 1 0 1 := by
  refine ⟨⟨by decide, fun h => ?_⟩, ⟨by decide, fun h => ?_⟩, fun h => ?_⟩
  · exact absurd (h.stayed (by decide)) (by decide)
  · exact absurd (h.reached (by decide)).2 (by decide)
  · exact absurd (h.noOverflow 0 1 (2 ^ 32) (by decide) (by decide) (by decide)).2 (by decide)

end Seek

end Mcsos.VfsSeek

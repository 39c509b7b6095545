import Mcsos.VfsEffects

namespace Mcsos.VfsTransfers

open Mcsos.CallSystem
open Mcsos.RamfsModel
open Mcsos.FdModel
open Mcsos.VfsInvariant
open Mcsos.VfsNames
open Mcsos.VfsDescriptors
open Mcsos.VfsEffects

/-- The offset, the flags and the node of every descriptor and the size and the bytes of
every file are the same. -/
structure Untouched (w w' : VfsWorld) : Prop where
  descriptor : ∀ i slot, slot < mcsMaxOpenFiles →
    (w'.tables i slot).offset = (w.tables i slot).offset ∧
      (w'.tables i slot).flags = (w.tables i slot).flags ∧
      (w'.tables i slot).node = (w.tables i slot).node
  file : ∀ n, (w'.fs.nodes n).size = (w.fs.nodes n).size ∧ fileBytes w'.fs n = fileBytes w.fs n

theorem Untouched.refl (w : VfsWorld) : Untouched w w :=
  ⟨fun _ _ _ => ⟨rfl, rfl, rfl⟩, fun _ => ⟨rfl, rfl⟩⟩

/-- The calls that move bytes between a buffer and a file. -/
def transfers : VfsCall → Bool
  | .vfsRead _ _ _ _ => true
  | .vfsWrite _ _ _ _ => true
  | _ => false

/-- The writes that are refused at the end of the file, away from where the descriptor
was. -/
def RefusedAway (w : VfsWorld) : VfsCall → Prop
  | .vfsWrite i fd buf len =>
      ∃ slot n, WritesFile (w.tables i) w.fs fd buf len slot n ∧
        (w.tables i slot).flags &&& mcsOAppend ≠ 0 ∧
        (w.tables i slot).offset ≠ (w.fs.nodes n).size ∧
        fileCapacity < (w.fs.nodes n).size + len
  | _ => False

section Calls

variable {fs : McsRamfs} {table : McsFdTable} {fd : Int}

theorem mcsVfsRead_failed {buf : Bool} {len : Nat}
    (h : (mcsVfsRead table fs fd buf len).ret < 0) :
    (mcsVfsRead table fs fd buf len).table = table := by
  unfold mcsVfsRead at h ⊢
  split
  · rfl
  case isFalse hbuf =>
    rw [if_neg hbuf] at h
    rcases hget : mcsFdGet table fd with _ | slot
    · rfl
    · rw [hget] at h
      dsimp only at h ⊢
      split
      · rfl
      case isFalse hcan =>
        rw [if_neg hcan] at h
        split
        case h_1 node hnode hfs =>
          rw [hnode, hfs] at h
          dsimp only at h
          split
          · rfl
          case isFalse hfile =>
            rw [if_neg hfile] at h
            split
            · rfl
            case isFalse hend =>
              rw [if_neg hend] at h
              exact absurd h (Int.not_lt.mpr (Int.natCast_nonneg _))
        · rfl

end Calls

section Steps

variable {w : VfsWorld} {i slot n len : Nat} {fd : Int} {buf : Option (Nat → UInt8)}

theorem step_refused (hinv : VfsInv w) (hwrites : WritesFile (w.tables i) w.fs fd buf len slot n)
    (hfull : fileCapacity < writeStart w.fs (w.tables i slot) n + len) :
    (w.step (.vfsWrite i fd buf len)).2.ret < 0 ∧
      (w.step (.vfsWrite i fd buf len)).1 =
        w.setTable i (Function.update (w.tables i) slot
          { w.tables i slot with offset := writeStart w.fs (w.tables i slot) n }) := by
  obtain ⟨hbuf, hget, hcan, hnode, hpos, hn⟩ := hwrites
  have hwrite := mcsVfsWrite_file hinv.ramfs (hinv.tables i) hbuf hget hcan hnode hpos hn
  rw [if_pos hfull] at hwrite
  split at hwrite
  · simp only [VfsWorld.step, hwrite]
    exact ⟨code_neg .einval, rfl⟩
  · simp only [VfsWorld.step, hwrite]
    exact ⟨code_neg .enospc, rfl⟩

theorem RefusedAway.not_untouched (hinv : VfsInv w) {call : VfsCall} (h : RefusedAway w call) :
    (w.step call).2.ret < 0 ∧ ¬Untouched w (w.step call).1 := by
  cases call with
  | vfsWrite i fd buf len =>
      obtain ⟨slot, n, hwrites, happend, haway, hfull⟩ := h
      have hstart : writeStart w.fs (w.tables i slot) n = (w.fs.nodes n).size := if_pos happend
      obtain ⟨hret, hnext⟩ := step_refused hinv hwrites (by rw [hstart]; exact hfull)
      refine ⟨hret, fun hsame => haway ?_⟩
      obtain ⟨hoffset, -⟩ := hsame.descriptor i slot (mcsFdGet_some hwrites.slot_eq).1
      rw [hnext, tables_setTable, Function.update_self] at hoffset
      exact hoffset.symm.trans hstart
  | _ => exact h.elim

theorem write_failed (hinv : VfsInv w) (hret : (w.step (.vfsWrite i fd buf len)).2.ret < 0) :
    (w.step (.vfsWrite i fd buf len)).1 = w ∨ RefusedAway w (.vfsWrite i fd buf len) := by
  rcases mcsVfsWrite_cases hinv.ramfs (hinv.tables i) fd buf len with
    ⟨rc, hfailed⟩ | ⟨slot, n, hwrites⟩
  · left
    simp only [VfsWorld.step, hfailed]
    exact setTable_self w i
  · have hfull : fileCapacity < writeStart w.fs (w.tables i slot) n + len := by
      by_contra hfits
      obtain ⟨hbuf, hget, hcan, hnode, hpos, hn⟩ := id hwrites
      rw [VfsWorld.step, mcsVfsWrite_file hinv.ramfs (hinv.tables i) hbuf hget hcan hnode hpos hn,
        if_neg (by omega), if_neg hfits] at hret
      exact absurd hret (Int.not_lt.mpr (Int.natCast_nonneg _))
    obtain ⟨-, hnext⟩ := step_refused hinv hwrites hfull
    by_cases haway : (w.tables i slot).offset = writeStart w.fs (w.tables i slot) n
    · left
      rw [hnext, ← haway, Function.update_eq_self]
      exact setTable_self w i
    · right
      unfold writeStart at haway hfull
      split at haway
      case isTrue happend =>
        rw [if_pos happend] at hfull
        exact ⟨slot, n, hwrites, happend, haway, hfull⟩
      case isFalse happend => exact absurd rfl haway

/-- In every reachable state, a read or a write that fails leaves all descriptors and files
as they were, exactly if it is not one that is refused after it moved the descriptor. -/
theorem failed_untouched_iff {fs : McsRamfs} {tables : Nat → McsFdTable}
    {trace : List (VfsCall × VfsResult)}
    (hrun : Run callSystem (startWorld fs tables) trace w) {call : VfsCall}
    (hcall : transfers call = true) :
    ((w.step call).2.ret < 0 → Untouched w (w.step call).1) ↔ ¬RefusedAway w call := by
  have hinv := (sound_run hrun).inv
  constructor
  · intro hsame haway
    obtain ⟨hret, hnot⟩ := haway.not_untouched hinv
    exact hnot (hsame hret)
  · intro hnot hret
    have hnext : (w.step call).1 = w := by
      cases call with
      | vfsRead i fd buf len =>
          rw [VfsWorld.step, mcsVfsRead_failed hret]
          exact setTable_self w i
      | vfsWrite i fd buf len => exact (write_failed hinv hret).resolve_right hnot
      | _ => cases hcall
    rw [hnext]
    exact .refl w

/-- A file of two bytes, open for appending in slot 0, with the descriptor at its start. -/
def rewoundCalls : List VfsCall :=
  [.vfsOpen 0 (some [slash, 0x61]) (mcsOCreat ||| mcsORdwr ||| mcsOAppend),
    .vfsWrite 0 0 (some fun _ => 7) 2, .vfsLseek 0 0 0 0]

def rewoundWorld : VfsWorld := rewoundCalls.foldl (fun w call => (w.step call).1) freshWorld

theorem run_rewoundWorld :
    Run callSystem freshWorld (rewoundCalls.zip [⟨0, []⟩, ⟨2, []⟩, ⟨0, []⟩]) rewoundWorld :=
  .cons trivial rfl (.cons trivial rfl (.cons trivial rfl (.nil _)))

theorem failed_untouched_noBuffer :
    (rewoundWorld.step (.vfsWrite 0 0 none 255)).2.ret = -22 ∧
      Untouched rewoundWorld (rewoundWorld.step (.vfsWrite 0 0 none 255)).1 := by
  refine ⟨by decide, (failed_untouched_iff run_rewoundWorld rfl).mpr ?_ (by decide)⟩
  rintro ⟨slot, n, hwrites, -⟩
  exact hwrites.buffer (by decide)

/-- 255 bytes do not fit behind two, and the refused write leaves the descriptor at the end
of the file. -/
theorem failed_not_untouched :
    (rewoundWorld.step (.vfsWrite 0 0 (some fun _ => 9) 255)).2.ret = -28 ∧
      (rewoundWorld.tables 0 0).offset = 0 ∧
      ((rewoundWorld.step (.vfsWrite 0 0 (some fun _ => 9) 255)).1.tables 0 0).offset = 2 ∧
      ¬Untouched rewoundWorld
        (rewoundWorld.step (.vfsWrite 0 0 (some fun _ => 9) 255)).1 := by
  refine ⟨by decide, by decide, by decide, fun h => ?_⟩
  exact absurd (h.descriptor 0 0 (by decide)).1 (by decide)

end Steps

end Mcsos.VfsTransfers

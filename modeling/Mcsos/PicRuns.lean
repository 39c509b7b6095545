import Mcsos.CallSystem
import Mcsos.PicModel

namespace Mcsos.PicRuns

open Mcsos.CallSystem
open Mcsos.PicModel

/-- The line of an interrupt is not masked, as the driver reads the masks back. -/
def enabled (p : PicPair) (irq : Nat) : Bool :=
  if irq < 8 then !(picReadMasterMask p).toBitVec.getLsbD irq
  else decide (irq < 16) && !(picReadSlaveMask p).toBitVec.getLsbD (irq - 8)

section Masks

variable {p p' : PicPair} {offsets : UInt8 × UInt8}

end Masks

/-- The chips and the interrupts whose handlers have not returned, the latest first. -/
structure Service where
  pics : PicPair
  handlers : List Nat

/-- An interrupt comes, or the latest handler calls `pic_send_eoi` for its interrupt and
returns; in between lines are masked and unmasked.  When a line is masked or taken back before
the processor asks for the vector, the chip gives that of its last line by default. -/
inductive ServiceAction where
  | interrupt (irq : Nat)
  | defaultMaster
  | defaultSlave
  | handled
  | maskAll
  | unmaskIrq (irq : UInt8)
deriving DecidableEq

/-- The line of the first chip that an interrupt comes on. -/
def masterLine (irq : Nat) : Nat := if irq < 8 then irq else 2

/-- A chip gives way only to lines above all those that are in service. -/
def Pic.Accepts (pic : Pic) (line : Nat) : Prop := ∀ i, i ≤ line → pic.inService i = false

/-- The line is open, that of the second chip at the first one too, and no interrupt of its
priority is in service.  The default of the second chip is an interrupt for the first one. -/
def Service.Allowed (s : Service) : ServiceAction → Prop
  | .interrupt irq =>
      irq < 16 ∧ irq ≠ 2 ∧ enabled s.pics irq = true ∧ enabled s.pics (masterLine irq) = true ∧
        Pic.Accepts s.pics.master (masterLine irq) ∧
        (8 ≤ irq → Pic.Accepts s.pics.slave (irq - 8))
  | .defaultMaster => True
  | .defaultSlave => enabled s.pics 2 = true ∧ Pic.Accepts s.pics.master 2
  | .handled => s.handlers ≠ []
  | .maskAll => True
  | .unmaskIrq irq => irq < 40

/-- The vector that the processor gets. -/
def PicPair.vector (p : PicPair) (irq : Nat) : Nat :=
  if irq < 8 then p.master.offset.toNat + irq else p.slave.offset.toNat + (irq - 8)

def PicPair.acknowledge (p : PicPair) (irq : Nat) : PicPair :=
  ⟨p.master.acknowledge (masterLine irq),
    if irq < 8 then p.slave else p.slave.acknowledge (irq - 8)⟩

/-- The result is the vector of an interrupt that comes.  A chip that gives its default takes
nothing into service. -/
def Service.step (s : Service) : ServiceAction → Option (Service × Option Nat)
  | .interrupt irq =>
      some (⟨PicPair.acknowledge s.pics irq, irq :: s.handlers⟩, some (PicPair.vector s.pics irq))
  | .defaultMaster => some ({ s with handlers := 7 :: s.handlers }, some (PicPair.vector s.pics 7))
  | .defaultSlave =>
      some (⟨{ s.pics with master := s.pics.master.acknowledge 2 }, 15 :: s.handlers⟩,
        some (PicPair.vector s.pics 15))
  | .handled =>
      match s.handlers with
      | [] => none
      | irq :: rest => some (⟨picSendEoi s.pics (UInt8.ofNat irq), rest⟩, none)
  | .maskAll => some ({ s with pics := picMaskAll s.pics }, none)
  | .unmaskIrq irq => (picUnmaskIrq s.pics irq).map fun pics => ({ s with pics := pics }, none)

/-- The lines in service, by priority. -/
def Pic.lines (pic : Pic) : List Nat := (List.range 8).filter pic.inService

/-- The lines of the second chip that handlers are for. -/
def slaveLines (handlers : List Nat) : List Nat := (handlers.filter (8 ≤ ·)).map (· - 8)

/-- How the lines in service are related to the handlers, the latest of them first. -/
structure Serving (R : List Nat → List Nat → Prop) (s : Service) : Prop where
  master : R (Pic.lines s.pics.master) (s.handlers.map masterLine)
  slave : R (Pic.lines s.pics.slave) (slaveLines s.handlers)
  bounded : ∀ irq ∈ s.handlers, irq < 16

section Service

variable {R : List Nat → List Nat → Prop} {s s' : Service} {offsets : UInt8 × UInt8}

theorem masterLine_lt (irq : Nat) : masterLine irq < 8 := by
  rw [masterLine]
  split
  case isTrue h => exact h
  case isFalse => decide

theorem slaveLines_cons_low {irq : Nat} (h : irq < 8) (handlers : List Nat) :
    slaveLines (irq :: handlers) = slaveLines handlers := by
  rw [slaveLines, List.filter_cons_of_neg (by simpa using h), slaveLines]

theorem slaveLines_cons_high {irq : Nat} (h : 8 ≤ irq) (handlers : List Nat) :
    slaveLines (irq :: handlers) = (irq - 8) :: slaveLines handlers := by
  rw [slaveLines, List.filter_cons_of_pos (by simpa using h), List.map_cons, slaveLines]

theorem filter_update {xs ys : List Nat} {a : Nat} (h : (xs ++ a :: ys).Nodup) (f : Nat → Bool)
    (b : Bool) :
    (xs ++ a :: ys).filter (Function.update f a b) =
      xs.filter f ++ ((if b = true then [a] else []) ++ ys.filter f) := by
  obtain ⟨hxs, hys⟩ : a ∉ xs ∧ a ∉ ys := by
    obtain ⟨-, hcons, hdisjoint⟩ := List.nodup_append.mp h
    exact ⟨fun hmem => hdisjoint a hmem a List.mem_cons_self rfl, (List.nodup_cons.mp hcons).1⟩
  have hother : ∀ zs : List Nat, a ∉ zs → zs.filter (Function.update f a b) = zs.filter f :=
    fun zs hzs => List.filter_congr fun i hi =>
      Function.update_of_ne (fun heq : i = a => hzs (heq ▸ hi)) b f
  rw [List.filter_append, List.filter_cons, Function.update_self, hother xs hxs, hother ys hys]
  split
  · rfl
  · rfl

theorem lines_acknowledge {pic : Pic} (hmode : pic.mode = 0x01) {line : Nat} (hline : line < 8)
    (haccepts : Pic.Accepts pic line) :
    Pic.lines (pic.acknowledge line) = line :: Pic.lines pic := by
  have hmanual : ¬(pic.mode &&& 0x02 ≠ 0) := by
    rw [hmode]
    decide
  obtain ⟨xs, ys, hrange⟩ := List.append_of_mem (List.mem_range.mpr hline)
  have hnodup : (xs ++ line :: ys).Nodup := hrange ▸ List.nodup_range
  have hlow : xs.filter pic.inService = [] := by
    have hsorted : (xs ++ line :: ys).Pairwise (· < ·) := hrange ▸ List.pairwise_lt_range
    refine List.filter_eq_nil_iff.mpr fun i hi => ?_
    have hlt : i < line := (List.pairwise_append.mp hsorted).2.2 i hi line List.mem_cons_self
    rw [haccepts i (Nat.le_of_lt hlt)]
    exact Bool.false_ne_true
  rw [Pic.acknowledge, if_neg hmanual, Pic.lines, Pic.lines, hrange, filter_update hnodup,
    List.filter_append, hlow, List.filter_cons, haccepts line (Nat.le_refl line)]
  rfl

theorem lines_endOfInterrupt (pic : Pic) :
    Pic.lines pic.endOfInterrupt = (Pic.lines pic).tail := by
  rw [Pic.endOfInterrupt]
  split
  case h_1 line hhighest =>
    obtain ⟨hin, xs, ys, hrange, hlow⟩ := List.find?_eq_some_iff_append.mp hhighest
    have hnodup : (xs ++ line :: ys).Nodup := hrange ▸ List.nodup_range
    have hnone : xs.filter pic.inService = [] :=
      List.filter_eq_nil_iff.mpr fun i hi => by simpa using hlow i hi
    rw [Pic.lines, Pic.lines, hrange, filter_update hnodup, List.filter_append, hnone,
      List.filter_cons_of_pos hin]
    rfl
  case h_2 hnone =>
    have hempty : Pic.lines pic = [] := List.filter_eq_nil_iff.mpr (List.find?_eq_none.mp hnone)
    rw [hempty, List.tail_nil]

theorem Serving.interrupt (h : Serving R s) (hcons : ∀ a l m, R l m → R (a :: l) (a :: m))
    (hinit : Initialized s.pics offsets.1 offsets.2) {irq : Nat}
    (hallowed : s.Allowed (.interrupt irq)) :
    Serving R ⟨PicPair.acknowledge s.pics irq, irq :: s.handlers⟩ := by
  obtain ⟨hirq, -, -, -, hmaster, hslave⟩ := hallowed
  refine ⟨?_, ?_, List.forall_mem_cons.mpr ⟨hirq, h.bounded⟩⟩
  · rw [PicPair.acknowledge, List.map_cons,
      lines_acknowledge hinit.masterMode (masterLine_lt irq) hmaster]
    exact hcons _ _ _ h.master
  · rw [PicPair.acknowledge]
    dsimp only
    split
    case isTrue hlow =>
      rw [slaveLines_cons_low hlow]
      exact h.slave
    case isFalse hhigh =>
      have hge : 8 ≤ irq := Nat.not_lt.mp hhigh
      have hline : irq - 8 < 8 := by omega
      rw [slaveLines_cons_high hge, lines_acknowledge hinit.slaveMode hline (hslave hge)]
      exact hcons _ _ _ h.slave

theorem Serving.defaultMaster (h : Serving R s) (hskip : ∀ a l m, R l m → R l (a :: m)) :
    Serving R { s with handlers := 7 :: s.handlers } := by
  refine ⟨hskip _ _ _ h.master, ?_, List.forall_mem_cons.mpr ⟨by decide, h.bounded⟩⟩
  rw [slaveLines_cons_low (by decide)]
  exact h.slave

theorem Serving.defaultSlave (h : Serving R s) (hcons : ∀ a l m, R l m → R (a :: l) (a :: m))
    (hskip : ∀ a l m, R l m → R l (a :: m)) (hinit : Initialized s.pics offsets.1 offsets.2)
    (haccepts : Pic.Accepts s.pics.master 2) :
    Serving R ⟨{ s.pics with master := s.pics.master.acknowledge 2 }, 15 :: s.handlers⟩ := by
  refine ⟨?_, ?_, List.forall_mem_cons.mpr ⟨by decide, h.bounded⟩⟩
  · rw [lines_acknowledge hinit.masterMode (by decide) haccepts]
    exact hcons _ _ _ h.master
  · rw [slaveLines_cons_high (by decide)]
    exact hskip _ _ _ h.slave

theorem Serving.handled {pics : PicPair} {irq : Nat} {rest : List Nat}
    (h : Serving R ⟨pics, irq :: rest⟩) (htail : ∀ a l m, R l (a :: m) → R l.tail m) :
    Serving R ⟨picSendEoi pics (UInt8.ofNat irq), rest⟩ := by
  obtain ⟨hirq, hrest⟩ := List.forall_mem_cons.mp h.bounded
  have hnumber : (UInt8.ofNat irq).toNat = irq :=
    UInt8.toNat_ofNat_of_lt (Nat.lt_of_lt_of_le hirq (by decide))
  have hchip : UInt8.ofNat irq ≥ 8 ↔ 8 ≤ irq := by
    rw [ge_iff_le, UInt8.le_iff_toNat_le, hnumber]
    rfl
  have hslave := h.slave
  rw [picSendEoi_eq]
  refine ⟨?_, ?_, hrest⟩
  · rw [lines_endOfInterrupt]
    exact htail _ _ _ h.master
  · dsimp only at hslave ⊢
    split
    case isTrue hhigh =>
      rw [slaveLines_cons_high (hchip.mp hhigh)] at hslave
      rw [lines_endOfInterrupt]
      exact htail _ _ _ hslave
    case isFalse hlow =>
      rwa [slaveLines_cons_low (Nat.not_le.mp (mt hchip.mpr hlow))] at hslave

theorem Serving.congr {pics : PicPair} (h : Serving R s)
    (hmaster : pics.master.inService = s.pics.master.inService)
    (hslave : pics.slave.inService = s.pics.slave.inService) :
    Serving R { s with pics := pics } := by
  refine ⟨?_, ?_, h.bounded⟩
  · rw [Pic.lines, hmaster]
    exact h.master
  · rw [Pic.lines, hslave]
    exact h.slave

end Service

end Mcsos.PicRuns

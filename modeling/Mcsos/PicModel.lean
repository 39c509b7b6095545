import Mathlib.Logic.Function.Basic

/-!
The interrupt controllers of `src/pic.c`.  The driver is modelled over a pair of 8259A chips,
as far as the ports that it uses go: the initialization words, the mask, and the command that
ends an interrupt.
-/

namespace Mcsos.PicModel

/-- What the next byte at the data port is.  The first initialization word says which of the
others follow. -/
inductive PicStage where
  | ready
  | icw2 (icw1 : UInt8)
  | icw3 (icw1 : UInt8)
  | icw4
deriving DecidableEq, Repr

structure Pic where
  imr : UInt8
  inService : Nat → Bool
  offset : UInt8
  cascade : UInt8
  mode : UInt8
  stage : PicStage

/-- The line of the highest priority in service. -/
def Pic.highest (pic : Pic) : Option Nat := (List.range 8).find? pic.inService

/-- An end of interrupt that names no line is for the highest one. -/
def Pic.endOfInterrupt (pic : Pic) : Pic :=
  match pic.highest with
  | some line => { pic with inService := Function.update pic.inService line false }
  | none => pic

def Pic.writeCommand (pic : Pic) (value : UInt8) : Pic :=
  if value &&& 0x10 ≠ 0 then
    { pic with
      imr := 0
      mode := if value &&& 0x01 ≠ 0 then pic.mode else 0
      stage := .icw2 value }
  else if value = 0x20 then pic.endOfInterrupt
  else pic

def PicStage.afterIcw3 (icw1 : UInt8) : PicStage := if icw1 &&& 0x01 ≠ 0 then .icw4 else .ready

def Pic.writeData (pic : Pic) (value : UInt8) : Pic :=
  match pic.stage with
  | .ready => { pic with imr := value }
  | .icw2 icw1 =>
      { pic with
        offset := value &&& 0xf8
        stage := if icw1 &&& 0x02 = 0 then .icw3 icw1 else .afterIcw3 icw1 }
  | .icw3 icw1 => { pic with cascade := value, stage := .afterIcw3 icw1 }
  | .icw4 => { pic with mode := value, stage := .ready }

/-- An interrupt of a line is taken; with an automatic end it is not in service after that. -/
def Pic.acknowledge (pic : Pic) (line : Nat) : Pic :=
  if pic.mode &&& 0x02 ≠ 0 then pic
  else { pic with inService := Function.update pic.inService line true }

structure PicPair where
  master : Pic
  slave : Pic

def pic1Command : UInt16 := 0x20

def pic1Data : UInt16 := 0x21

def pic2Command : UInt16 := 0xa0

def pic2Data : UInt16 := 0xa1

def picEoi : UInt8 := 0x20

/-- No other port is read here. -/
def inb (p : PicPair) (port : UInt16) : UInt8 :=
  if port = pic1Data then p.master.imr
  else if port = pic2Data then p.slave.imr
  else 0xff

def outb (p : PicPair) (port : UInt16) (value : UInt8) : PicPair :=
  if port = pic1Command then { p with master := p.master.writeCommand value }
  else if port = pic1Data then { p with master := p.master.writeData value }
  else if port = pic2Command then { p with slave := p.slave.writeCommand value }
  else if port = pic2Data then { p with slave := p.slave.writeData value }
  else p

def picMaskAll (p : PicPair) : PicPair :=
  let p := outb p pic1Data 0xff
  outb p pic2Data 0xff

/-- `pic_unmask_irq`, which has no result for shifts of 32 and more. -/
def picUnmaskIrq (p : PicPair) (irq : UInt8) : Option PicPair :=
  let port := if irq < 8 then pic1Data else pic2Data
  let line := if irq < 8 then irq else irq - 8
  if 32 ≤ line then none
  else
    let value := (inb p port).toUInt32 &&& ~~~((1 : UInt32) <<< line.toUInt32)
    some (outb p port value.toUInt8)

def picSendEoi (p : PicPair) (irq : UInt8) : PicPair :=
  let p := if irq ≥ 8 then outb p pic2Command picEoi else p
  outb p pic1Command picEoi

def picReadMasterMask (p : PicPair) : UInt8 := inb p pic1Data

def picReadSlaveMask (p : PicPair) : UInt8 := inb p pic2Data

/-- The chips after the four initialization words. -/
structure Initialized (p : PicPair) (masterOffset slaveOffset : UInt8) : Prop where
  masterStage : p.master.stage = .ready
  slaveStage : p.slave.stage = .ready
  masterOffset : p.master.offset = masterOffset &&& 0xf8
  slaveOffset : p.slave.offset = slaveOffset &&& 0xf8
  masterCascade : p.master.cascade = 0x04
  slaveCascade : p.slave.cascade = 0x02
  masterMode : p.master.mode = 0x01
  slaveMode : p.slave.mode = 0x01

section Ready

variable {p : PicPair} {masterOffset slaveOffset : UInt8}

end Ready

theorem picSendEoi_eq (p : PicPair) (irq : UInt8) :
    picSendEoi p irq =
      ⟨p.master.endOfInterrupt, if irq ≥ 8 then p.slave.endOfInterrupt else p.slave⟩ := by
  rw [picSendEoi]
  split
  · rfl
  · rfl

end Mcsos.PicModel

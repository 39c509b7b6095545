import Mcsos.CallSystem
import Mcsos.SerialModel

/-!
How characters reach the serial line.  The device takes them into a buffer and puts them on
the line in its own time; `serial_write_char` waits until the device says that the buffer is
empty, while `early_serial_puts` of the first boot path writes on.
-/

namespace Mcsos.SerialPolling

open Mcsos.CallSystem
open Mcsos.SerialModel

/-- The characters that are in the buffer of the device, that are on the line, and that came
while the buffer was full. -/
structure Uart where
  buffer : List Char
  line : List Char
  lost : List Char
deriving DecidableEq, Repr

/-- A write of the data register. -/
def Uart.put (capacity : Nat) (uart : Uart) (c : Char) : Uart :=
  if uart.buffer.length < capacity then { uart with buffer := uart.buffer ++ [c] }
  else { uart with lost := uart.lost ++ [c] }

/-- A read of the line status register; bit 5 says that the buffer is empty, and the `other`
bits do not concern the driver. -/
def Uart.lineStatus (uart : Uart) (other : UInt8) : UInt8 :=
  if uart.buffer = [] then other ||| 0x20 else other &&& ~~~0x20

/-- The device puts the first character of its buffer on the line. -/
def Uart.transmit (uart : Uart) : Option Uart :=
  match uart.buffer with
  | [] => none
  | c :: buffer => some { uart with buffer := buffer, line := uart.line ++ [c] }

/-- `serial_ready`, and `is_transmit_empty` of `log.h`. -/
def serialReady (status : UInt8) : Bool := status &&& 0x20 != 0

inductive SendPc where
  | poll
  | write
deriving DecidableEq, Repr

/-- A driver in front of the characters that are not written. -/
structure Sender where
  rest : List Char
  pc : SendPc
deriving DecidableEq, Repr

/-- One access of `serial_send_string`, or of `log_writeln` with the two characters that it
adds: each character is written once a read of the status has found the device ready. -/
def pollingStep (capacity : Nat) (other : UInt8) (sender : Sender) (uart : Uart) :
    Option (Sender × Uart) :=
  match sender.rest, sender.pc with
  | [], _ => none
  | c :: rest, .poll =>
      some (⟨c :: rest, if serialReady (uart.lineStatus other) then .write else .poll⟩, uart)
  | c :: rest, .write => some (⟨rest, .poll⟩, uart.put capacity c)

/-- One access of `early_serial_puts`. -/
def earlyStep (capacity : Nat) (_other : UInt8) (sender : Sender) (uart : Uart) :
    Option (Sender × Uart) :=
  match sender.rest with
  | [] => none
  | c :: rest => some ({ sender with rest := rest }, uart.put capacity c)

inductive LineAction where
  | driver (other : UInt8)
  | device
deriving DecidableEq, Repr

/-- The driver and the device in any interleaving. -/
def lineSystem (step : UInt8 → Sender → Uart → Option (Sender × Uart)) :
    System (Sender × Uart) LineAction Unit where
  allowed _ _ := True
  step s
    | .driver other => (step other s.1 s.2).map fun next => (next, ())
    | .device => s.2.transmit.map fun uart => ((s.1, uart), ())

variable {capacity : Nat} {sender : Sender} {uart : Uart} {trace : List (LineAction × Unit)}

theorem serialReady_set (other : UInt8) : serialReady (other ||| 0x20) = true := by
  have hbit : (other ||| 0x20) &&& 0x20 = 0x20 := by
    apply UInt8.toBitVec_inj.mp
    ext i hi
    rw [UInt8.toBitVec_and, UInt8.toBitVec_or, BitVec.getElem_and, BitVec.getElem_or]
    cases (UInt8.toBitVec 0x20)[i] <;> simp
  rw [serialReady, hbit]
  decide

theorem serialReady_clear (other : UInt8) : serialReady (other &&& ~~~0x20) = false := by
  rw [serialReady, UInt8.and_assoc, UInt8.not_and_self, UInt8.and_zero]
  decide

theorem serialReady_lineStatus (uart : Uart) (other : UInt8) :
    serialReady (uart.lineStatus other) = decide (uart.buffer = []) := by
  rw [Uart.lineStatus]
  split
  case isTrue hempty => rw [serialReady_set, decide_eq_true hempty]
  case isFalse hfull => rw [serialReady_clear, decide_eq_false hfull]

/-- Nothing is lost, and what the device has and what is still to be written make up the
`text`; the driver is about to write only when the buffer is empty. -/
structure Lossless (text : List Char) (sender : Sender) (uart : Uart) : Prop where
  lost : uart.lost = []
  text : uart.line ++ (uart.buffer ++ sender.rest) = text
  ready : sender.pc = .write → uart.buffer = []

variable {text : List Char}

theorem Lossless.driver (h : Lossless text sender uart) (hcapacity : 0 < capacity)
    {other : UInt8} {next : Sender × Uart}
    (hstep : pollingStep capacity other sender uart = some next) :
    Lossless text next.1 next.2 := by
  obtain ⟨rest, pc⟩ := sender
  rcases rest with _ | ⟨c, rest⟩
  · cases hstep
  · cases pc with
    | poll =>
        cases hstep
        refine ⟨h.lost, h.text, fun hwrite => ?_⟩
        rw [serialReady_lineStatus] at hwrite
        by_contra hfull
        rw [decide_eq_false hfull] at hwrite
        cases hwrite
    | write =>
        cases hstep
        have hempty : uart.buffer = [] := h.ready rfl
        have htext := h.text
        rw [hempty] at htext
        have hput : uart.put capacity c = { uart with buffer := [c] } := by
          rw [Uart.put, hempty]
          exact if_pos hcapacity
        rw [hput]
        exact ⟨h.lost, htext, fun hwrite => by cases hwrite⟩

theorem Lossless.device (h : Lossless text sender uart) {uart' : Uart}
    (hstep : uart.transmit = some uart') : Lossless text sender uart' := by
  obtain ⟨buffer, line, lost⟩ := uart
  rcases buffer with _ | ⟨c, buffer⟩
  · cases hstep
  · cases hstep
    refine ⟨h.lost, ?_, fun hwrite => ?_⟩
    · rw [List.append_assoc]
      exact h.text
    · cases h.ready hwrite

theorem Lossless.exists_emptied (capacity : Nat) (h : Lossless text sender uart) :
    ∃ trace line, Run (lineSystem (pollingStep capacity)) (sender, uart) trace
        (sender, ⟨[], line, []⟩) ∧ Lossless text sender ⟨[], line, []⟩ := by
  obtain ⟨buffer, line, lost⟩ := uart
  obtain rfl : lost = [] := h.lost
  induction buffer generalizing line with
  | nil => exact ⟨[], line, .nil _, h⟩
  | cons c buffer ih =>
      obtain ⟨trace, line', hrun, hempty⟩ := ih (line ++ [c]) (h.device rfl)
      exact ⟨(.device, ()) :: trace, line', .cons trivial rfl hrun, hempty⟩

theorem run_write (hcapacity : 0 < capacity) (c : Char) (rest line : List Char) (pc : SendPc) :
    ∃ trace, Run (lineSystem (pollingStep capacity)) (⟨c :: rest, pc⟩, ⟨[], line, []⟩) trace
      (⟨rest, .poll⟩, ⟨[c], line, []⟩) := by
  have hput : (Uart.mk [] line []).put capacity c = ⟨[c], line, []⟩ := if_pos hcapacity
  have hwrite : Run (lineSystem (pollingStep capacity)) (⟨c :: rest, .write⟩, ⟨[], line, []⟩)
      [(.driver 0, ())] (⟨rest, .poll⟩, ⟨[c], line, []⟩) := by
    refine .cons trivial rfl ?_
    dsimp only
    rw [hput]
    exact .nil _
  have hready : serialReady ((Uart.mk [] line []).lineStatus 0) = true := by
    rw [serialReady_lineStatus]
    rfl
  have hpoll : (lineSystem (pollingStep capacity)).step
      (⟨c :: rest, .poll⟩, ⟨[], line, []⟩) (.driver 0) =
        some ((⟨c :: rest, .write⟩, ⟨[], line, []⟩), ()) := by
    simp [lineSystem, pollingStep, hready]
  cases pc with
  | poll => exact ⟨_, .cons trivial hpoll hwrite⟩
  | write => exact ⟨[(.driver 0, ())], hwrite⟩

theorem Lossless.exists_finish (h : Lossless text sender uart) (hcapacity : 0 < capacity) :
    ∃ trace pc, Run (lineSystem (pollingStep capacity)) (sender, uart) trace
      (⟨[], pc⟩, ⟨[], text, []⟩) := by
  obtain ⟨rest, pc⟩ := sender
  induction rest generalizing pc uart with
  | nil =>
      obtain ⟨trace, line, hrun, hempty⟩ := h.exists_emptied capacity
      obtain rfl : line = text := by simpa using hempty.text
      exact ⟨trace, pc, hrun⟩
  | cons c rest ih =>
      obtain ⟨first, line, hfirst, hempty⟩ := h.exists_emptied capacity
      obtain ⟨second, hsecond⟩ := run_write hcapacity c rest line pc
      have hwritten : Lossless text ⟨rest, .poll⟩ ⟨[c], line, []⟩ :=
        ⟨rfl, hempty.text, fun hwrite => by cases hwrite⟩
      obtain ⟨third, pc', hthird⟩ := ih .poll hwritten
      exact ⟨first ++ (second ++ third), pc', hfirst.append (hsecond.append hthird)⟩

/-- However the device and the driver take turns, and whatever the device had in its buffer
before: a driver that polls loses no character and keeps them in order, and it can always
finish. -/
theorem run_polling (hcapacity : 0 < capacity) {text buffer line : List Char}
    (hrun : Run (lineSystem (pollingStep capacity)) (⟨text, .poll⟩, ⟨buffer, line, []⟩) trace
      (sender, uart)) :
    uart.lost = [] ∧ uart.line ++ (uart.buffer ++ sender.rest) = line ++ (buffer ++ text) ∧
      ∃ trace' pc, Run (lineSystem (pollingStep capacity)) (sender, uart) trace'
        (⟨[], pc⟩, ⟨[], line ++ (buffer ++ text), []⟩) := by
  have hstart : Lossless (line ++ (buffer ++ text)) ⟨text, .poll⟩ ⟨buffer, line, []⟩ :=
    ⟨rfl, rfl, fun hwrite => by cases hwrite⟩
  have hlossless := hrun.invariant
    (fun s => Lossless (line ++ (buffer ++ text)) s.1 s.2) ?_ hstart
  · exact ⟨hlossless.lost, hlossless.text, hlossless.exists_finish hcapacity⟩
  · intro s action s' result h _ hstep
    cases action with
    | driver other =>
        obtain ⟨next, hnext, heq⟩ := Option.map_eq_some_iff.mp hstep
        cases heq
        exact h.driver hcapacity hnext
    | device =>
        obtain ⟨uart', hnext, heq⟩ := Option.map_eq_some_iff.mp hstep
        cases heq
        exact h.device hnext

/-- A device with room for two characters has one on the line and one in the buffer. -/
def busyUart : Uart := ⟨['b'], ['a'], []⟩

theorem run_busyUart :
    Run (lineSystem (pollingStep 2)) (⟨['b'], .poll⟩, ⟨['a'], [], []⟩)
      [(.driver 0, ()), (.device, ()), (.driver 0, ()), (.driver 0, ())]
      (⟨[], .poll⟩, busyUart) := by
  have hbusy : serialReady ((Uart.mk ['a'] [] []).lineStatus 0) = false := by
    rw [serialReady_lineStatus]
    rfl
  have hready : serialReady ((Uart.mk [] ['a'] []).lineStatus 0) = true := by
    rw [serialReady_lineStatus]
    rfl
  refine .cons trivial (t := (⟨['b'], .poll⟩, ⟨['a'], [], []⟩)) ?_ (.cons trivial rfl ?_)
  · simp [lineSystem, pollingStep, hbusy]
  · refine .cons trivial (t := (⟨['b'], .write⟩, ⟨[], ['a'], []⟩)) ?_ (.cons trivial rfl (.nil _))
    simp [lineSystem, pollingStep, hready]

theorem run_polling_busyUart :
    busyUart.lost = [] ∧ busyUart.line ++ (busyUart.buffer ++ []) = [] ++ (['a'] ++ ['b']) ∧
      ∃ trace' pc, Run (lineSystem (pollingStep 2)) (⟨[], .poll⟩, busyUart) trace'
        (⟨[], pc⟩, ⟨[], [] ++ (['a'] ++ ['b']), []⟩) :=
  run_polling (by decide) run_busyUart

theorem run_early (capacity : Nat) (rest : List Char) (pc : SendPc) (uart : Uart) :
    ∃ trace, Run (lineSystem (earlyStep capacity)) (⟨rest, pc⟩, uart) trace
      (⟨[], pc⟩, rest.foldl (Uart.put capacity) uart) := by
  induction rest generalizing uart with
  | nil => exact ⟨[], .nil _⟩
  | cons c rest ih =>
      obtain ⟨trace, hrun⟩ := ih (uart.put capacity c)
      exact ⟨(.driver 0, ()) :: trace, .cons trivial rfl hrun⟩

theorem foldl_put_lost (text : List Char) (uart : Uart) (htext : text ≠ [])
    (hfull : capacity < uart.buffer.length + text.length) :
    (text.foldl (Uart.put capacity) uart).lost ≠ [] := by
  have hkept : ∀ (text : List Char) (uart : Uart), uart.lost ≠ [] →
      (text.foldl (Uart.put capacity) uart).lost ≠ [] := by
    intro text
    induction text with
    | nil => exact fun _ h => h
    | cons c text ih =>
        intro uart h
        refine ih _ ?_
        rw [Uart.put]
        split
        · exact h
        · simp
  induction text generalizing uart with
  | nil => exact absurd rfl htext
  | cons c text ih =>
      rw [List.foldl_cons, Uart.put]
      split
      case isTrue hroom =>
        rw [List.length_cons] at hfull
        refine ih _ ?_ ?_
        · rintro rfl
          rw [List.length_nil] at hfull
          omega
        · rw [List.length_append, List.length_singleton]
          omega
      case isFalse => exact hkept text _ (by simp)

/-- What is left has room in the buffer. -/
structure Fits (capacity : Nat) (sender : Sender) (uart : Uart) : Prop where
  lost : uart.lost = []
  room : sender.rest = [] ∨ uart.buffer.length + sender.rest.length ≤ capacity

theorem Fits.driver (h : Fits capacity sender uart) {other : UInt8} {next : Sender × Uart}
    (hstep : earlyStep capacity other sender uart = some next) : Fits capacity next.1 next.2 := by
  obtain ⟨rest, pc⟩ := sender
  rcases rest with _ | ⟨c, rest⟩
  · cases hstep
  · cases hstep
    have hfits := h.room.resolve_left (List.cons_ne_nil c rest)
    rw [List.length_cons] at hfits
    have hput : uart.put capacity c = { uart with buffer := uart.buffer ++ [c] } :=
      if_pos (by omega)
    rw [hput]
    refine ⟨h.lost, .inr ?_⟩
    rw [List.length_append, List.length_singleton]
    dsimp only
    omega

theorem Fits.device (h : Fits capacity sender uart) {uart' : Uart}
    (hstep : uart.transmit = some uart') : Fits capacity sender uart' := by
  obtain ⟨buffer, line, lost⟩ := uart
  rcases buffer with _ | ⟨c, buffer⟩
  · cases hstep
  · cases hstep
    refine ⟨h.lost, h.room.imp_right fun hfits => ?_⟩
    rw [List.length_cons] at hfits
    dsimp only
    omega

/-- A driver that does not poll loses no character in any interleaving exactly when the whole
text has room in the buffer. -/
theorem early_lossless_iff (pc : SendPc) (text buffer line : List Char) :
    (∀ trace sender uart, Run (lineSystem (earlyStep capacity)) (⟨text, pc⟩, ⟨buffer, line, []⟩)
        trace (sender, uart) → uart.lost = []) ↔
      text = [] ∨ buffer.length + text.length ≤ capacity := by
  constructor
  · intro hlossless
    by_contra hcond
    rw [not_or, Nat.not_le] at hcond
    obtain ⟨trace, hrun⟩ := run_early capacity text pc ⟨buffer, line, []⟩
    exact foldl_put_lost text _ hcond.1 hcond.2 (hlossless trace _ _ hrun)
  · intro hroom trace sender uart hrun
    have hfits := hrun.invariant (fun s => Fits capacity s.1 s.2) ?_ ⟨rfl, hroom⟩
    · exact hfits.lost
    · intro s action s' result h _ hstep
      cases action with
      | driver other =>
          obtain ⟨next, hnext, heq⟩ := Option.map_eq_some_iff.mp hstep
          cases heq
          exact h.driver hnext
      | device =>
          obtain ⟨uart', hnext, heq⟩ := Option.map_eq_some_iff.mp hstep
          cases heq
          exact h.device hnext

end Mcsos.SerialPolling

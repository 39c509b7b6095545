import Mathlib.Data.List.Basic

/-!
The text that the serial drivers put out: `kernel/driver/serial.c`, `kernel/core/log.c` and
`mcsos/mcsos/kernel/log.h`.  A text is the list of its characters up to the null character;
how the characters reach the device is left to another module.
-/

namespace Mcsos.SerialModel

/-- What a loop over the characters of a buffer up to the first null character puts out. -/
def serialSendString (buffer : List Char) : List Char :=
  buffer.takeWhile (· ≠ '\x00')

def serialWriteString (buffer : List Char) : List Char := serialSendString buffer

/-- The literal `hex` of `serial_write_hex64`. -/
def hexLower : List Char :=
  ['0', '1', '2', '3', '4', '5', '6', '7', '8', '9', 'a', 'b', 'c', 'd', 'e', 'f']

def serialWriteHex64 (v : UInt64) : List Char :=
  let digits := (List.range 16).map fun i =>
    hexLower.getD ((v >>> UInt64.ofNat (60 - i * 4)) &&& 0xf).toNat '\x00'
  serialSendString (['0', 'x'] ++ digits ++ ['\x00'])

/-- The loop of `serial_write_dec64`, with `i` characters left in front of those that are
written.  It has no result when it would write in front of the buffer. -/
def decLoop : Nat → Nat → List Char → Option (List Char)
  | i, v, written =>
      if v = 0 then some written
      else
        match i with
        | 0 => none
        | i + 1 => decLoop i (v / 10) (Char.ofNat (48 + v % 10) :: written)

def serialWriteDec64 (v : UInt64) : Option (List Char) :=
  if v = 0 then some (serialSendString ['0', '\x00'])
  else (decLoop 20 v.toNat ['\x00']).map serialSendString

def logWrite (buffer : List Char) : List Char := serialSendString buffer

/-- The literal `hex_chars` of `log_hex64`. -/
def hexUpper : List Char :=
  ['0', '1', '2', '3', '4', '5', '6', '7', '8', '9', 'A', 'B', 'C', 'D', 'E', 'F']

/-- The loop of `log_hex64`, which fills the buffer from its end. -/
def hexLoop : Nat → UInt64 → List Char → List Char
  | 0, _, written => written
  | i + 1, val, written =>
      hexLoop i (val >>> 4) (hexUpper.getD (val &&& 0xf).toNat '\x00' :: written)

def logHex64 (val : UInt64) : List Char :=
  logWrite (['0', 'x'] ++ hexLoop 16 val ['\x00'])

def logWriteln (m : List Char) : List Char :=
  serialSendString m ++ ['\r', '\n']

def logKeyValueHex64 (k : List Char) (v : UInt64) : List Char :=
  let digits := (List.range 16).map fun j =>
    let nibble := ((v >>> UInt64.ofNat ((15 - j) * 4)) &&& 0xf).toNat
    Char.ofNat (if nibble < 10 then 48 + nibble else 65 + nibble - 10)
  logWriteln k ++ logWriteln (['0', 'x'] ++ digits ++ ['\x00'])

end Mcsos.SerialModel

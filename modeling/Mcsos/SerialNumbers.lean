import Mcsos.Numerals
import Mcsos.SerialModel

namespace Mcsos.SerialNumbers

open Mcsos.Numerals
open Mcsos.SerialModel

/-- The value of a hexadecimal digit, in either case. -/
def readDigit (c : Char) : Option Nat :=
  if '0' ≤ c ∧ c ≤ '9' then some (c.toNat - 48)
  else if 'a' ≤ c ∧ c ≤ 'f' then some (c.toNat - 87)
  else if 'A' ≤ c ∧ c ≤ 'F' then some (c.toNat - 55)
  else none

def writeLower (d : Nat) : Char := hexLower.getD d '\x00'

def writeUpper (d : Nat) : Char := hexUpper.getD d '\x00'

theorem readDigit_writeLower : ∀ d, d < 16 → readDigit (writeLower d) = some d := by decide

theorem readDigit_writeUpper : ∀ d, d < 16 → readDigit (writeUpper d) = some d := by decide

theorem serialSendString_append {text rest : List Char} (h : ∀ c ∈ text, c ≠ '\x00') :
    serialSendString (text ++ '\x00' :: rest) = text := by
  rw [serialSendString, List.takeWhile_append_of_pos]
  · simp
  · intro c hc
    exact decide_eq_true (h c hc)

/-- The digits of a number, behind the two characters that mark it as hexadecimal. -/
def hexText (write : Nat → Char) (n : Nat) : List Char :=
  ['0', 'x'] ++ (lastDigits 16 16 n).map write

theorem serialSendString_hexText {write : Nat → Char} (hwrite : ∀ d, d < 16 → write d ≠ '\x00')
    (n : Nat) : serialSendString (hexText write n ++ ['\x00']) = hexText write n := by
  apply serialSendString_append
  intro c hc
  rw [hexText, List.mem_append] at hc
  rcases hc with hc | hc
  · rw [List.mem_cons, List.mem_singleton] at hc
    rcases hc with rfl | rfl <;> decide
  · obtain ⟨d, hd, rfl⟩ := List.mem_map.mp hc
    exact hwrite d (lastDigits_lt (by decide) hd)

theorem toNat_lowNibble (v : UInt64) : (v &&& 0xf).toNat = v.toNat % 16 := by
  have hmask : (0xf : UInt64).toNat = 2 ^ 4 - 1 := rfl
  rw [UInt64.toNat_and, hmask, Nat.and_two_pow_sub_one_eq_mod]

theorem toNat_nibble (v : UInt64) {shift : Nat} (h : shift < 64) :
    ((v >>> UInt64.ofNat shift) &&& 0xf).toNat = v.toNat / 2 ^ shift % 16 := by
  have hshift : shift % 2 ^ 64 % 64 = shift := by omega
  rw [toNat_lowNibble, UInt64.toNat_shiftRight, UInt64.toNat_ofNat', hshift,
    Nat.shiftRight_eq_div_pow]

theorem map_nibbles (v : UInt64) (write : Nat → Char) (f : Nat → Char)
    (hf : ∀ i, i < 16 → f i = write (v.toNat / 2 ^ ((15 - i) * 4) % 16)) :
    (List.range 16).map f = (lastDigits 16 16 v.toNat).map write := by
  rw [lastDigits_eq_map, List.map_map]
  apply List.map_congr_left
  intro i hi
  have hpow : 2 ^ ((15 - i) * 4) = 16 ^ (16 - 1 - i) := by
    rw [Nat.mul_comm, Nat.pow_mul]
  rw [hf i (List.mem_range.mp hi), hpow]
  rfl

theorem serialWriteHex64_eq (v : UInt64) :
    serialWriteHex64 v = hexText writeLower v.toNat := by
  have hdigits := map_nibbles v writeLower
    (fun i => hexLower.getD ((v >>> UInt64.ofNat (60 - i * 4)) &&& 0xf).toNat '\x00') ?_
  · rw [serialWriteHex64, hdigits]
    exact serialSendString_hexText (by decide) v.toNat
  · intro i hi
    have hshift : 60 - i * 4 = (15 - i) * 4 := by omega
    rw [toNat_nibble v (by omega), hshift]
    rfl

theorem hexLoop_eq (i : Nat) (val : UInt64) (written : List Char) :
    hexLoop i val written = (lastDigits 16 i val.toNat).map writeUpper ++ written := by
  induction i generalizing val written with
  | zero => rfl
  | succ i ih =>
      have hshift : (val >>> 4).toNat = val.toNat / 16 := by
        rw [UInt64.toNat_shiftRight, Nat.shiftRight_eq_div_pow]
        rfl
      rw [hexLoop, ih, hshift, toNat_lowNibble, lastDigits, List.map_append, List.append_assoc]
      rfl

theorem logHex64_eq (val : UInt64) : logHex64 val = hexText writeUpper val.toNat := by
  rw [logHex64, logWrite, hexLoop_eq, ← List.append_assoc]
  exact serialSendString_hexText (by decide) val.toNat

theorem logWriteln_hexText {write : Nat → Char} (hwrite : ∀ d, d < 16 → write d ≠ '\x00')
    (n : Nat) : logWriteln (hexText write n ++ ['\x00']) = hexText write n ++ ['\r', '\n'] := by
  rw [logWriteln, serialSendString_hexText hwrite]

theorem logKeyValueHex64_eq (k : List Char) (v : UInt64) :
    logKeyValueHex64 k v = logWriteln k ++ (hexText writeUpper v.toNat ++ ['\r', '\n']) := by
  have hdigits := map_nibbles v writeUpper
    (fun j => Char.ofNat
      (if ((v >>> UInt64.ofNat ((15 - j) * 4)) &&& 0xf).toNat < 10 then
        48 + ((v >>> UInt64.ofNat ((15 - j) * 4)) &&& 0xf).toNat
      else 65 + ((v >>> UInt64.ofNat ((15 - j) * 4)) &&& 0xf).toNat - 10)) ?_
  · rw [logKeyValueHex64]
    dsimp only
    rw [hdigits]
    exact congrArg (logWriteln k ++ ·) (logWriteln_hexText (by decide) v.toNat)
  · intro i hi
    have hdigit : ∀ d, d < 16 →
        Char.ofNat (if d < 10 then 48 + d else 65 + d - 10) = writeUpper d := by decide
    rw [toNat_nibble v (by omega)]
    exact hdigit _ (Nat.mod_lt _ (by decide))

theorem decLoop_zero (i : Nat) (written : List Char) : decLoop i 0 written = some written := by
  cases i with
  | zero => rfl
  | succ i => rfl

theorem decLoop_eq (i v : Nat) (written : List Char) (hpos : 0 < v) (h : v < 10 ^ i) :
    decLoop i v written = some (Nat.toDigits 10 v ++ written) := by
  induction i generalizing v written with
  | zero => omega
  | succ i ih =>
      have hdigit : ∀ d, d < 10 → Char.ofNat (48 + d) = d.digitChar := by decide
      rw [decLoop, if_neg (by omega), hdigit (v % 10) (Nat.mod_lt v (by decide))]
      rcases Nat.lt_or_ge v 10 with hlt | hge
      · have hrest : v / 10 = 0 := by omega
        rw [hrest, decLoop_zero, Nat.mod_eq_of_lt hlt, Nat.toDigits_of_lt_base hlt]
        rfl
      · rw [Nat.pow_succ] at h
        rw [ih (v / 10) _ (by omega) (by omega), Nat.toDigits_of_base_le (by decide) hge,
          List.append_assoc]
        rfl

theorem serialWriteDec64_eq (v : UInt64) :
    serialWriteDec64 v = some (Nat.toDigits 10 v.toNat) := by
  rw [serialWriteDec64]
  split
  case isTrue hzero =>
    subst hzero
    decide
  case isFalse hpos =>
    have hvalue : 0 < v.toNat :=
      Nat.pos_of_ne_zero fun hzero => hpos (UInt64.toNat_inj.mp hzero)
    have hbound : v.toNat < 10 ^ 20 := Nat.lt_trans v.toNat_lt (by decide)
    rw [decLoop_eq 20 v.toNat ['\x00'] hvalue hbound, Option.map_some, serialSendString_append]
    rintro c hc rfl
    have hdigit := Nat.isDigit_of_mem_toDigits (by decide) (by decide) hc
    exact absurd hdigit (by decide)

/-- Sixteen digits that stand for a number. -/
def IsHex64 (digits : List Char) (n : Nat) : Prop :=
  digits.length = 16 ∧ numeralValue 16 readDigit digits = some n

theorem isHex64_lastDigits {write : Nat → Char}
    (hread : ∀ d, d < 16 → readDigit (write d) = some d) (v : UInt64) :
    IsHex64 ((lastDigits 16 16 v.toNat).map write) v.toNat := by
  have hlt : v.toNat < 16 ^ 16 := v.toNat_lt
  refine ⟨by rw [List.length_map, length_lastDigits], ?_⟩
  rw [numeralValue_lastDigits (by decide) hread, Nat.mod_eq_of_lt hlt]

/-- The decimal printer stays within its buffer and puts out the decimal digits of the number.
The hexadecimal printers write sixteen digits, from which the number can be read back, and
differ in the case of the letters only. -/
theorem printed_numbers (v : UInt64) :
    serialWriteDec64 v = some (Nat.toDigits 10 v.toNat) ∧
      ∃ lower upper, IsHex64 lower v.toNat ∧ IsHex64 upper v.toNat ∧
        serialWriteHex64 v = ['0', 'x'] ++ lower ∧ logHex64 v = ['0', 'x'] ++ upper ∧
        (∀ k, logKeyValueHex64 k v =
          logWriteln k ++ (['0', 'x'] ++ upper ++ ['\r', '\n'])) ∧
        upper = lower.map Char.toUpper := by
  refine ⟨serialWriteDec64_eq v, _, _, isHex64_lastDigits readDigit_writeLower v,
    isHex64_lastDigits readDigit_writeUpper v, serialWriteHex64_eq v, logHex64_eq v,
    fun k => logKeyValueHex64_eq k v, ?_⟩
  rw [List.map_map]
  apply List.map_congr_left
  intro d hd
  have hcase : ∀ d, d < 16 → writeUpper d = (writeLower d).toUpper := by decide
  exact hcase d (lastDigits_lt (by decide) hd)

end Mcsos.SerialNumbers

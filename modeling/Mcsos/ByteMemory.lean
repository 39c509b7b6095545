import Mathlib.Data.Nat.Basic
import Mathlib.Tactic.Ring

/-!
Byte-addressed memory with little-endian fields of any width.
-/

namespace Mcsos.ByteMemory

/-- A memory gives a byte at every address. -/
abbrev ByteMem := Nat → UInt8

/-- The little-endian value of the `count` bytes from `addr`. -/
def readLE (m : ByteMem) (addr : Nat) : Nat → Nat
  | 0 => 0
  | count + 1 => (m addr).toNat + 256 * readLE m (addr + 1) count

/-- Store `value`, little-endian, in the `count` bytes from `addr`. -/
def writeLE (m : ByteMem) (addr count value : Nat) : ByteMem := fun a =>
  if addr ≤ a ∧ a < addr + count then
    UInt8.ofNat (value / 256 ^ (a - addr))
  else m a

/-- Store one byte value in each of the `count` bytes from `addr`. -/
def fill (m : ByteMem) (addr count : Nat) (value : UInt8) : ByteMem := fun a =>
  if addr ≤ a ∧ a < addr + count then value else m a

theorem writeLE_outside {m : ByteMem} {addr count value a : Nat}
    (h : a < addr ∨ addr + count ≤ a) : writeLE m addr count value a = m a := by
  rw [writeLE, if_neg]
  omega

theorem fill_outside {m : ByteMem} {addr count a : Nat} {value : UInt8}
    (h : a < addr ∨ addr + count ≤ a) : fill m addr count value a = m a := by
  rw [fill, if_neg]
  omega

theorem fill_inside {m : ByteMem} {addr count a : Nat} {value : UInt8}
    (hlow : addr ≤ a) (hhigh : a < addr + count) :
    fill m addr count value a = value := by
  rw [fill, if_pos ⟨hlow, hhigh⟩]

theorem readLE_congr {m m' : ByteMem} {addr count : Nat}
    (h : ∀ a, addr ≤ a → a < addr + count → m a = m' a) :
    readLE m addr count = readLE m' addr count := by
  induction count generalizing addr with
  | zero => rfl
  | succ count ih =>
      have hhead : m addr = m' addr := h addr (le_refl _) (by omega)
      have htail : readLE m (addr + 1) count = readLE m' (addr + 1) count :=
        ih fun a hlow hhigh => h a (by omega) (by omega)
      simp only [readLE, hhead, htail]

theorem readLE_writeLE_disjoint {m : ByteMem} {addr count addr' count' value : Nat}
    (h : addr + count ≤ addr' ∨ addr' + count' ≤ addr) :
    readLE (writeLE m addr' count' value) addr count = readLE m addr count :=
  readLE_congr fun a hlow hhigh => writeLE_outside (by omega)

/-- A field that was just written reads back, up to its width. -/
theorem readLE_writeLE (m : ByteMem) (addr count value : Nat) :
    readLE (writeLE m addr count value) addr count = value % 256 ^ count := by
  induction count generalizing addr value m with
  | zero => simp [readLE, Nat.mod_one]
  | succ count ih =>
      have hhead : (writeLE m addr (count + 1) value addr).toNat = value % 256 := by
        simp [writeLE]
      have htail : readLE (writeLE m addr (count + 1) value) (addr + 1) count =
          readLE (writeLE m (addr + 1) count (value / 256)) (addr + 1) count := by
        apply readLE_congr
        intro a hlow hhigh
        have hpow : 256 * 256 ^ (a - (addr + 1)) = 256 ^ (a - addr) := by
          rw [← pow_succ']
          congr 1
          omega
        rw [writeLE, if_pos (by omega), writeLE, if_pos ⟨hlow, hhigh⟩,
          Nat.div_div_eq_div_mul, hpow]
      rw [readLE, hhead, htail, ih, pow_succ', Nat.mod_mul]

/-- A field is its low part and its high part. -/
theorem readLE_add (m : ByteMem) (addr low high : Nat) :
    readLE m addr (low + high) = readLE m addr low + 256 ^ low * readLE m (addr + low) high := by
  induction low generalizing addr with
  | zero => simp [readLE]
  | succ low ih =>
      have haddr : addr + 1 + low = addr + (low + 1) := by omega
      rw [Nat.succ_add, readLE, ih, readLE, haddr, pow_succ']
      ring

end Mcsos.ByteMemory

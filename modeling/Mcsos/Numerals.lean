import Mathlib.Algebra.Group.Nat.Defs
import Mathlib.Data.Nat.Notation
import Mathlib.Order.Basic

/-!
Numbers written with symbols, the most significant digit first, and read back.
-/

namespace Mcsos.Numerals

universe u

variable {α : Type u}

/-- The value of a symbol, if it is that of a digit to the base `b`. -/
def digitValue (b : Nat) (read : α → Option Nat) (c : α) : Option Nat :=
  (read c).filter (· < b)

/-- The number that a text stands for to the base `b`, where `read` is the value of a
symbol; there is none if a symbol is not a digit. -/
def numeralValue (b : Nat) (read : α → Option Nat) (text : List α) : Option Nat :=
  text.foldl (fun number c => number.bind fun n => (digitValue b read c).map (b * n + ·)) (some 0)

/-- The last `k` digits of a number. -/
def lastDigits (b : Nat) : Nat → Nat → List Nat
  | 0, _ => []
  | k + 1, n => lastDigits b k (n / b) ++ [n % b]

variable {b : Nat} {read : α → Option Nat}

theorem numeralValue_nil : numeralValue b read [] = some 0 := rfl

theorem numeralValue_concat (text : List α) (c : α) :
    numeralValue b read (text ++ [c]) =
      (numeralValue b read text).bind fun n => (digitValue b read c).map (b * n + ·) := by
  rw [numeralValue, List.foldl_append]
  rfl

theorem numeralValue_digit {text : List α} {c : α} {n d : Nat}
    (htext : numeralValue b read text = some n) (hc : read c = some d) (hd : d < b) :
    numeralValue b read (text ++ [c]) = some (b * n + d) := by
  have hvalue : digitValue b read c = some d := by simp [digitValue, hc, hd]
  rw [numeralValue_concat, htext, Option.bind_some, hvalue, Option.map_some]

theorem length_lastDigits (k n : Nat) : (lastDigits b k n).length = k := by
  induction k generalizing n with
  | zero => rfl
  | succ k ih => rw [lastDigits, List.length_append, ih, List.length_singleton]

/-- The digits one by one. -/
theorem lastDigits_eq_map (k n : Nat) :
    lastDigits b k n = (List.range k).map fun i => n / b ^ (k - 1 - i) % b := by
  induction k generalizing n with
  | zero => rfl
  | succ k ih =>
      have hlast : n / b ^ (k + 1 - 1 - k) % b = n % b := by
        rw [Nat.add_sub_cancel, Nat.sub_self, Nat.pow_zero, Nat.div_one]
      rw [lastDigits, ih, List.range_succ, List.map_append, List.map_singleton, hlast]
      congr 1
      apply List.map_congr_left
      intro i hi
      have hsplit : k + 1 - 1 - i = (k - 1 - i) + 1 := by
        have := List.mem_range.mp hi
        omega
      rw [hsplit, Nat.pow_succ, Nat.mul_comm, Nat.div_div_eq_div_mul]

theorem lastDigits_lt (hb : 0 < b) {k n d : Nat} (hd : d ∈ lastDigits b k n) : d < b := by
  rw [lastDigits_eq_map] at hd
  obtain ⟨i, -, rfl⟩ := List.mem_map.mp hd
  exact Nat.mod_lt _ hb

/-- Digits that are written with symbols are read back, as far as they go. -/
theorem numeralValue_lastDigits {write : Nat → α} (hb : 0 < b)
    (hread : ∀ d, d < b → read (write d) = some d) (k n : Nat) :
    numeralValue b read ((lastDigits b k n).map write) = some (n % b ^ k) := by
  induction k generalizing n with
  | zero => rw [Nat.pow_zero, Nat.mod_one, lastDigits, List.map_nil, numeralValue_nil]
  | succ k ih =>
      rw [lastDigits, List.map_append, List.map_singleton,
        numeralValue_digit (ih (n / b)) (hread _ (Nat.mod_lt n hb)) (Nat.mod_lt n hb),
        Nat.pow_succ, Nat.mul_comm _ b, Nat.mod_mul, Nat.add_comm]

end Mcsos.Numerals

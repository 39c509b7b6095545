import Mathlib.Algebra.Order.Ring.Abs
import Mathlib.Tactic.IntervalCases
import Mathlib.Tactic.Linarith
import Mcsos.SerialNumbers

/-!
The programmable interval timer of `src/pit.c`: the reload value that is programmed for a
frequency, and the ticks that are counted and logged.
-/

namespace Mcsos.PitTimer

open Mcsos.SerialModel
open Mcsos.SerialNumbers

def pitBaseFrequency : UInt32 := 1193182

/-- The divisor that `pit_configure_hz` computes. -/
def pitDivisor (hz : UInt32) : UInt32 :=
  let divisor := pitBaseFrequency / hz
  if pitBaseFrequency % hz ≥ hz / 2 then divisor + 1 else divisor

/-- `pit_configure_hz`: the writes to ports, in their order.  There are none for a frequency
of zero, where the division traps. -/
def pitConfigureHz (hz : UInt32) : Option (List (UInt16 × UInt8)) :=
  if hz = 0 then none
  else
    let divisor := pitDivisor hz
    some [(0x43, 0x36), (0x40, (divisor &&& 0xff).toUInt8),
      (0x40, ((divisor >>> 8) &&& 0xff).toUInt8)]

/-- `timer_on_irq0`: the ticks after it, and what it puts out. -/
def timerOnIrq0 (ticks : UInt64) : UInt64 × Option (List Char) :=
  let ticks := ticks + 1
  if ticks % 100 = 0 then
    (ticks, (serialWriteDec64 ticks).map fun number =>
      serialWriteString "[MCSOS:TIMER] ticks=".toList ++ number ++ serialWriteString ['\n'])
  else (ticks, some [])

/-- What the timer counts down from: it was told to take a low and a high byte for channel 0,
and takes zero for the largest value. -/
def reloadValue : List (UInt16 × UInt8) → Option Nat
  | [(0x43, 0x36), (0x40, low), (0x40, high)] =>
      let value := low.toNat + 256 * high.toNat
      some (if value = 0 then 65536 else value)
  | _ => none

/-- How far the period of a reload value is from the period that was asked for, in units that
do not depend on the reload value. -/
def periodError (hz reload : Nat) : Nat := ((reload * hz : Int) - 1193182).natAbs

/-- No reload value comes closer to the frequency.  All values that the counter can hold are
compared, also one, which the square wave of mode 3 does not work with. -/
def IsBestReload (hz reload : Nat) : Prop :=
  (1 ≤ reload ∧ reload ≤ 65536) ∧
    ∀ other, 1 ≤ other → other ≤ 65536 → periodError hz reload ≤ periodError hz other

theorem toNat_pitDivisor (hz : UInt32) :
    (pitDivisor hz).toNat =
      if hz.toNat / 2 ≤ 1193182 % hz.toNat then 1193182 / hz.toNat + 1
      else 1193182 / hz.toNat := by
  have hquotient : 1193182 / hz.toNat ≤ 1193182 := Nat.div_le_self ..
  have hbase : pitBaseFrequency.toNat = 1193182 := rfl
  rw [pitDivisor]
  simp only [ge_iff_le, UInt32.le_iff_toNat_le, UInt32.toNat_div, UInt32.toNat_mod, hbase,
    UInt32.reduceToNat]
  split
  · rw [UInt32.toNat_add, UInt32.toNat_div, hbase]
    exact Nat.mod_eq_of_lt (Nat.lt_of_le_of_lt (Nat.succ_le_succ hquotient) (by decide))
  · rw [UInt32.toNat_div, hbase]

theorem reloadValue_pitConfigureHz {hz : UInt32} (h : hz ≠ 0) :
    (pitConfigureHz hz).bind reloadValue =
      some (if (pitDivisor hz).toNat % 65536 = 0 then 65536
        else (pitDivisor hz).toNat % 65536) := by
  have hbyte : ∀ v : UInt32, (v &&& 0xff).toUInt8.toNat = v.toNat % 256 := by
    intro v
    have hmask : (0xff : UInt32).toNat = 2 ^ 8 - 1 := rfl
    rw [UInt32.toNat_toUInt8, UInt32.toNat_and, hmask, Nat.and_two_pow_sub_one_eq_mod,
      Nat.mod_mod]
  have hshift : (pitDivisor hz >>> 8).toNat = (pitDivisor hz).toNat / 256 := by
    rw [UInt32.toNat_shiftRight, Nat.shiftRight_eq_div_pow]
    rfl
  have hsum : (pitDivisor hz).toNat % 256 + 256 * ((pitDivisor hz).toNat / 256 % 256) =
      (pitDivisor hz).toNat % 65536 := by
    omega
  rw [pitConfigureHz, if_neg h]
  simp only [Option.bind_some, reloadValue, hbyte, hshift, hsum]

theorem isBestReload_of_half {hz reload : Nat} (hrange : 1 ≤ reload ∧ reload ≤ 65536)
    (hhalf : 2 * periodError hz reload ≤ hz) : IsBestReload hz reload := by
  refine ⟨hrange, fun other _ _ => ?_⟩
  rw [periodError] at hhalf ⊢
  rw [periodError]
  rcases Nat.lt_trichotomy other reload with hlt | rfl | hgt
  · have hstep : (other + 1) * hz ≤ reload * hz := Nat.mul_le_mul_right hz hlt
    rw [Nat.add_mul] at hstep
    omega
  · exact Nat.le_refl _
  · have hstep : (reload + 1) * hz ≤ other * hz := Nat.mul_le_mul_right hz hgt
    rw [Nat.add_mul] at hstep
    omega

section Rounding

variable {n q r : Nat}

theorem periodError_quotient (h : n * q + r = 1193182) : periodError n q = r := by
  have hproduct : q * n = n * q := Nat.mul_comm q n
  rw [periodError]
  omega

theorem periodError_next (h : n * q + r = 1193182) (hr : r < n) :
    periodError n (q + 1) = n - r := by
  have hproduct : (q + 1) * n = n * q + n := by rw [Nat.add_mul, Nat.one_mul, Nat.mul_comm]
  rw [periodError]
  omega

theorem dvd_iff_half (h : n * q + r = 1193182) (hr : r < n) :
    n ∣ 2386365 ↔ n = 2 * r + 1 := by
  have hsplit : 2386365 = n * (2 * q) + (2 * r + 1) := by
    have hdouble : n * (2 * q) = 2 * (n * q) := by rw [Nat.mul_left_comm]
    omega
  rw [hsplit, Nat.dvd_add_right (Dvd.intro _ rfl)]
  constructor
  · rintro ⟨k, hk⟩
    rcases k with _ | _ | k
    · omega
    · omega
    · have htwice : n * 2 ≤ n * (k + 1 + 1) := Nat.mul_le_mul_left n (by omega)
      omega
  · rintro rfl
    exact Nat.dvd_refl _

/-- The reload value that is programmed, of the numbers. -/
def programmed (n : Nat) : Nat :=
  let divisor := if n / 2 ≤ 1193182 % n then 1193182 / n + 1 else 1193182 / n
  if divisor % 65536 = 0 then 65536 else divisor % 65536

theorem programmed_eq (divisor : Nat)
    (h : (if n / 2 ≤ 1193182 % n then 1193182 / n + 1 else 1193182 / n) = divisor)
    (hpos : 1 ≤ divisor) (hlt : divisor < 65536) : programmed n = divisor := by
  rw [programmed, h]
  rw [Nat.mod_eq_of_lt hlt, if_neg (by omega)]

theorem not_best_slow (hpos : 0 < n) (hslow : n < 19) : ¬IsBestReload n (programmed n) := by
  have hbetter : ∀ n, n < 19 → 0 < n → periodError n 65536 < periodError n (programmed n) := by
    decide
  intro hbest
  exact absurd (hbest.2 65536 (by decide) (by decide)) (Nat.not_le.mpr (hbetter n hslow hpos))

theorem not_best_fast (hfast : 2386366 ≤ n) : ¬IsBestReload n (programmed n) := by
  have hquotient : 1193182 / n = 0 := Nat.div_eq_of_lt (by omega)
  have hremainder : 1193182 % n = 1193182 := Nat.mod_eq_of_lt (by omega)
  have hdown : ¬n / 2 ≤ 1193182 := by omega
  have hvalue : programmed n = 65536 := by
    rw [programmed, hquotient, hremainder, if_neg hdown]
    rfl
  rw [hvalue]
  intro hbest
  have hbetter := hbest.2 1 (by decide) (by decide)
  rw [periodError, periodError] at hbetter
  omega

theorem best_iff (hslow : 19 ≤ n) (hfast : n ≤ 2386365) :
    IsBestReload n (programmed n) ↔ (n ∣ 2386365 → n = 2386365) := by
  have hdivision : n * (1193182 / n) + 1193182 % n = 1193182 := Nat.div_add_mod 1193182 n
  have hr : 1193182 % n < n := Nat.mod_lt _ (by omega)
  have hq : 1193182 / n ≤ 62799 := Nat.div_le_div_left hslow (by decide)
  have hvalue := fun divisor => programmed_eq (n := n) divisor
  rw [dvd_iff_half hdivision hr]
  generalize 1193182 / n = q at *
  generalize 1193182 % n = r at *
  by_cases hup : n / 2 ≤ r
  · rw [if_pos hup] at hvalue
    rw [hvalue (q + 1) rfl (by omega) (by omega)]
    by_cases hhalf : n = 2 * r + 1
    · -- The quotient itself would be better, unless it is zero.
      rcases Nat.eq_zero_or_pos q with rfl | hpos
      · refine iff_of_true ⟨⟨by omega, by omega⟩, fun other hother _ => ?_⟩ fun _ => by omega
        have hleast : 1 * n ≤ other * n := Nat.mul_le_mul_right n hother
        rw [periodError, periodError]
        omega
      · refine iff_of_false (fun hbest => ?_) fun h => ?_
        · have hbetter := hbest.2 q hpos (by omega)
          rw [periodError_next hdivision hr, periodError_quotient hdivision] at hbetter
          omega
        · have hmultiple : n * 1 ≤ n * q := Nat.mul_le_mul_left n hpos
          have := h hhalf
          omega
    · refine iff_of_true (isBestReload_of_half ⟨by omega, by omega⟩ ?_) fun h => absurd h hhalf
      rw [periodError_next hdivision hr]
      omega
  · have hpos : 1 ≤ q := by
      rcases Nat.eq_zero_or_pos q with rfl | hpos
      · omega
      · exact hpos
    rw [if_neg hup] at hvalue
    rw [hvalue q rfl hpos (by omega)]
    refine iff_of_true (isBestReload_of_half ⟨hpos, by omega⟩ ?_) fun h => by omega
    rw [periodError_quotient hdivision]
    omega

end Rounding

/-- The timer gets the reload value that comes closest to a frequency exactly when that value
fits into two bytes, the frequency is not so high that the divisor is zero, and the remainder
is not just below the half of an odd frequency, which is rounded up. -/
theorem pitConfigureHz_best_iff {hz : UInt32} (h : hz ≠ 0) :
    (∃ reload, (pitConfigureHz hz).bind reloadValue = some reload ∧
        IsBestReload hz.toNat reload) ↔
      19 ≤ hz.toNat ∧ hz.toNat ≤ 2386365 ∧ (hz.toNat ∣ 2386365 → hz.toNat = 2386365) := by
  have hpos : 0 < hz.toNat := by
    rw [Nat.pos_iff_ne_zero]
    exact fun hzero => h (UInt32.toNat_inj.mp hzero)
  have hreload : (pitConfigureHz hz).bind reloadValue = some (programmed hz.toNat) := by
    rw [reloadValue_pitConfigureHz h, toNat_pitDivisor]
    rfl
  have hbest : (∃ reload, (pitConfigureHz hz).bind reloadValue = some reload ∧
      IsBestReload hz.toNat reload) ↔ IsBestReload hz.toNat (programmed hz.toNat) := by
    rw [hreload]
    constructor
    · rintro ⟨reload, heq, hbest⟩
      cases heq
      exact hbest
    · exact fun hbest => ⟨_, rfl, hbest⟩
  rw [hbest]
  rcases Nat.lt_or_ge hz.toNat 19 with hslow | hslow
  · exact iff_of_false (not_best_slow hpos hslow) fun hcond => by omega
  · rcases Nat.lt_or_ge 2386365 hz.toNat with hfast | hfast
    · exact iff_of_false (not_best_fast hfast) fun hcond => by omega
    · rw [best_iff hslow hfast]
      exact ⟨fun hdvd => ⟨hslow, hfast, hdvd⟩, fun hcond => hcond.2.2⟩

/-- A hundred ticks in a second. -/
theorem pitConfigureHz_best_iff_hundred :
    ∃ reload, (pitConfigureHz 100).bind reloadValue = some reload ∧ IsBestReload 100 reload :=
  (pitConfigureHz_best_iff (by decide : (100 : UInt32) ≠ 0)).mpr (by decide)

/-- The ticks after some interrupts from the start, and all that has been put out. -/
def timerRun : Nat → UInt64 × Option (List Char)
  | 0 => (0, some [])
  | n + 1 =>
      let (ticks, text) := timerRun n
      let (ticks, line) := timerOnIrq0 ticks
      (ticks, text.bind fun text => line.map (text ++ ·))

/-- The counts that are multiples of a hundred, in the order in which they are reached. -/
def loggedTicks (n : Nat) : List Nat :=
  ((List.range n).map fun i => (i + 1) % 2 ^ 64).filter fun ticks => ticks % 100 = 0

def timerLine (number : List Char) : List Char :=
  "[MCSOS:TIMER] ticks=".toList ++ number ++ ['\n']

theorem timerOnIrq0_eq {ticks : UInt64} {count : Nat} (hcount : (ticks + 1).toNat = count) :
    timerOnIrq0 ticks =
      (ticks + 1,
        some (([count].filter fun ticks => ticks % 100 = 0).flatMap fun ticks =>
          timerLine (Nat.toDigits 10 ticks))) := by
  have htext : serialWriteString "[MCSOS:TIMER] ticks=".toList =
      "[MCSOS:TIMER] ticks=".toList := by decide
  have hrest : (ticks + 1) % 100 = 0 ↔ count % 100 = 0 := by
    rw [← UInt64.toNat_inj, UInt64.toNat_mod, hcount]
    rfl
  rw [timerOnIrq0]
  by_cases hhundred : count % 100 = 0
  · rw [if_pos (hrest.mpr hhundred), serialWriteDec64_eq, hcount, Option.map_some, htext,
      List.filter_cons_of_pos (by simpa using hhundred)]
    simp only [List.filter_nil, List.flatMap_cons, List.flatMap_nil, List.append_nil]
    rfl
  · rw [if_neg fun h => hhundred (hrest.mp h), List.filter_cons_of_neg (by simpa using hhundred)]
    rfl

/-- After any number of interrupts the count is that number, as far as 64 bits go, and the log
has one line for every multiple of a hundred on the way, with the count in decimal. -/
theorem timerRun_log (n : Nat) :
    (timerRun n).1 = UInt64.ofNat n ∧
      (timerRun n).2 =
        some ((loggedTicks n).flatMap fun ticks => timerLine (Nat.toDigits 10 ticks)) := by
  induction n with
  | zero => exact ⟨rfl, rfl⟩
  | succ n ih =>
      obtain ⟨hticks, htext⟩ := ih
      have hcount : (UInt64.ofNat n + 1).toNat = (n + 1) % 2 ^ 64 := by
        rw [UInt64.toNat_add, UInt64.toNat_ofNat']
        exact Nat.mod_add_mod n (2 ^ 64) 1
      have hrun : timerRun (n + 1) =
          ((timerOnIrq0 (timerRun n).1).1,
            (timerRun n).2.bind fun text => (timerOnIrq0 (timerRun n).1).2.map (text ++ ·)) := rfl
      rw [hrun, hticks, htext, timerOnIrq0_eq hcount]
      constructor
      · rw [UInt64.ofNat_add]
        rfl
      · rw [loggedTicks, loggedTicks, List.range_succ, List.map_append, List.filter_append,
          List.flatMap_append]
        rfl

end Mcsos.PitTimer

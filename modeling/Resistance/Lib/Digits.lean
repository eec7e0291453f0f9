import Mathlib.Data.Nat.Digits.Lemmas
import Mathlib.Data.Nat.Size
import Mathlib.Data.List.GetD

/-! Little-endian digits in a base that is a power of two: carries, splitting at a digit, single
bits, and the number of bits.
-/

namespace Resistance.Lib.Digits

open List Nat

-- Digits of the base.
def Bounded (w : Nat) (digits : List Nat) : Prop := ∀ d ∈ digits, d < 2 ^ w

/-- A digit that keeps the low part of a sum and passes the high part on. -/
theorem carry_step (base rest high low : Nat)
    : low % base + base * ((low / base + high) % rest) = (low + base * high) % (base * rest) := by
  rcases Nat.eq_zero_or_pos base with rfl | pos
  · simp
  · rw [mod_mul, add_mul_mod_self_left, add_mul_div_left _ _ pos]

/-- Keeping some digits and reducing what stands above them reduces the whole. -/
theorem add_mul_mod {low base high rest : Nat} (small : low < base)
    : low + base * (high % rest) = (low + base * high) % (base * rest) := by
  rw [mod_mul, add_mul_mod_self_left, mod_eq_of_lt small,
    add_mul_div_left _ _ (zero_lt_of_lt small), div_eq_of_lt small, zero_add]

/-- The top digit decides a comparison. -/
theorem add_mul_lt {low base digit digit'} (low' : Nat) (small : low < base) (less : digit < digit')
    : low + base * digit < low' + base * digit' :=
  calc low + base * digit < base * (digit + 1) := by rw [mul_succ]; omega
    _ ≤ base * digit' := mul_le_mul_left _ less
    _ ≤ low' + base * digit' := Nat.le_add_left ..

theorem ofDigits_take_succ (base : Nat) (digits : List Nat) (t : Nat)
    : ofDigits base (digits.take (t + 1))
      = ofDigits base (digits.take t) + base ^ t * digits.getD t 0 := by
  rcases lt_or_ge t digits.length with inside | outside
  · rw [take_succ_eq_append_getElem inside, ofDigits_append, ofDigits_singleton,
      length_take_of_le inside.le, getD_eq_getElem _ _ inside]
  · rw [take_of_length_le outside, take_of_length_le (le_succ_of_le outside),
      getD_eq_default _ _ outside, mul_zero, add_zero]

/-- A bit of the number is a bit of one of its digits. -/
theorem testBit_ofDigits {w digits} (pos : 0 < w) (bounded : Bounded w digits) (n : Nat)
    : (ofDigits (2 ^ w) digits).testBit n = (digits.getD (n / w) 0).testBit (n % w) := by
  induction digits generalizing n with
  | nil => simp
  | cons d rest ih =>
    have small : d < 2 ^ w := bounded d mem_cons_self
    rw [ofDigits_cons, add_comm, testBit_two_pow_mul_add _ small]
    split
    next below => rw [div_eq_of_lt below, mod_eq_of_lt below, getD_cons_zero]
    next above =>
      have reach : w ≤ n := not_lt.mp above
      rw [ih (fun d mem => bounded d (mem_cons_of_mem _ mem)),
        div_eq_sub_div pos reach, getD_cons_succ, mod_eq_sub_mod reach]

/-- A number with a non-zero top digit has the bits below the digit and those of the digit. -/
theorem size_add_mul {low k digit} (small : low < 2 ^ k) (nonzero : digit ≠ 0)
    : size (low + 2 ^ k * digit) = k + size digit := by
  have lower : ∀ {m}, 2 ^ m ≤ digit → 2 ^ (k + m) ≤ low + 2 ^ k * digit := by
    intro m reached
    calc 2 ^ (k + m) = 2 ^ k * 2 ^ m := pow_add ..
      _ ≤ 2 ^ k * digit := mul_le_mul_left _ reached
      _ ≤ low + 2 ^ k * digit := Nat.le_add_left ..
  have upper : low + 2 ^ k * digit < 2 ^ (k + size digit) := by
    calc low + 2 ^ k * digit < 2 ^ k * (digit + 1) := by rw [mul_succ]; omega
      _ ≤ 2 ^ k * 2 ^ size digit := mul_le_mul_left _ (lt_size_self _)
      _ = 2 ^ (k + size digit) := (pow_add ..).symm
  refine le_antisymm (size_le.mpr upper) ?_
  have pos : 0 < size digit := size_pos.mpr (pos_of_ne_zero nonzero)
  have top : 2 ^ (size digit - 1) ≤ digit := lt_size.mp (sub_lt pos one_pos)
  have reached := lt_size.mpr (lower top)
  omega

end Resistance.Lib.Digits

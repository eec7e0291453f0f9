import Resistance.Arith.Bits

/-! The shift-and-subtract division of `operator/=`. -/

namespace Resistance.Arith.Limbs

open Nat

variable {num div pn : Limbs}

/-- What the loop of `operator/=` keeps, with `counter` bits of the quotient still to come: the
quotient so far accounts for what was subtracted, and the divisor stands at the next bit.
-/
structure Dividing (numerator divisor width counter : Nat) (num div pn : Limbs) : Prop where
  numWidth : num.length = width
  divWidth : div.length = width
  pnWidth : pn.length = width
  room : counter ≤ 32 * width
  aligned : ∀ shift, counter = shift + 1 → div.value = divisor * 2 ^ shift
  split : num.value + pn.value * divisor = numerator
  small : num.value < divisor * 2 ^ counter
  clear : 2 ^ counter ∣ pn.value

variable {numerator divisor width shift : Nat}

/-- The divisor moves one bit down; the numerator and the quotient are those of the branch. -/
theorem Dividing.next (state : Dividing numerator divisor width (shift + 1) num div pn) {num' pn'}
    (numWidth : num'.length = width) (pnWidth : pn'.length = width)
    (split : num'.value + pn'.value * divisor = numerator)
    (small : num'.value < divisor * 2 ^ shift) (clear : 2 ^ shift ∣ pn'.value)
    : Dividing numerator divisor width shift num' (div.shiftRight 1) pn' where
  numWidth := numWidth
  divWidth := (shiftRight_spec div 1).1.trans state.divWidth
  pnWidth := pnWidth
  room := le_of_succ_le state.room
  aligned := by
    rintro below rfl
    rw [(shiftRight_spec div 1).2, state.aligned _ rfl, shiftRight_one, pow_succ,
      ← mul_assoc, Nat.mul_div_cancel _ two_pos]
  split := split
  small := small
  clear := clear

theorem length_divLoop (counter : Nat) (num div pn : Limbs)
    : (divLoop counter num div pn).length = pn.length := by
  induction counter generalizing num div pn with
  | zero => rfl
  | succ shift ih =>
    rw [divLoop]
    split
    · rw [ih, length_orAt]
    · rw [ih]

theorem length_quotient (num div : Limbs) : (num.quotient div).length = num.length := by
  rw [quotient]
  split
  · exact length_zero num
  · rw [length_divLoop, length_zero]

/-- The loop ends with the quotient. -/
theorem divLoop_value {counter} (state : Dividing numerator divisor width counter num div pn)
    : (divLoop counter num div pn).value = numerator / divisor := by
  induction counter generalizing num div pn with
  | zero =>
    have small := state.small
    rw [pow_zero, mul_one] at small
    rw [divLoop, ← state.split, add_mul_div_right _ _ (zero_lt_of_lt small),
      div_eq_of_lt small, zero_add]
  | succ shift ih =>
    have aligned := state.aligned shift rfl
    have same : num.length = div.length := state.numWidth.trans state.divWidth.symm
    have small := state.small
    rw [pow_succ, ← mul_assoc] at small
    rw [divLoop]
    split
    next above =>
      have fits := (compareTo_nonneg same).mp above
      have inside : shift < 32 * pn.length := by
        rw [state.pnWidth]
        exact state.room
      have bit := value_setBit inside state.clear
      refine ih (state.next ?_ ?_ ?_ ?_ ?_)
      · rw [sub, length_add (same.trans (length_neg div).symm), state.numWidth]
      · rw [length_orAt, state.pnWidth]
      · rw [value_sub same fits, bit, add_mul, ← state.split, mul_comm (2 ^ shift)]
        omega
      · rw [value_sub same fits]
        omega
      · rw [bit]
        exact dvd_add ((pow_dvd_pow 2 (le_succ shift)).trans state.clear)
          (dvd_refl _)
    next below =>
      have fails := mt (compareTo_nonneg same).mpr below
      refine ih (state.next state.numWidth state.pnWidth state.split ?_ ?_)
      · omega
      · exact (pow_dvd_pow 2 (le_succ shift)).trans state.clear

/-- Where the loop starts, the top bits of both operands are aligned. -/
theorem dividing_start (same : num.length = div.length) (nonzero : div.value ≠ 0) {shift}
    (aligned : size num.value = size div.value + shift)
    : Dividing num.value div.value num.length (shift + 1) num (div.shiftLeft shift)
      num.zero := by
  have room : size num.value ≤ 32 * num.length := size_le.mpr (value_lt num)
  have pos : 0 < size div.value := size_pos.mpr (pos_of_ne_zero nonzero)
  have exact : div.value * 2 ^ shift < 2 ^ (32 * div.length) := by
    calc div.value * 2 ^ shift < 2 ^ size div.value * 2 ^ shift :=
          mul_lt_mul_of_pos_right (lt_size_self _) (Nat.two_pow_pos _)
      _ = 2 ^ size num.value := by rw [← pow_add, aligned]
      _ ≤ 2 ^ (32 * div.length) := Nat.pow_le_pow_right two_pos (same ▸ room)
  have top : 2 ^ (size div.value - 1) ≤ div.value := lt_size.mp (sub_lt pos one_pos)
  refine ⟨rfl, ?_, length_zero num, by omega, ?_, ?_, ?_, ?_⟩
  · rw [(shiftLeft_spec div shift).1, same]
  · intro below counted
    rw [← succ_injective counted, (shiftLeft_spec div shift).2, shiftLeft_eq, mod_eq_of_lt exact]
  · rw [value_zero, zero_mul, add_zero]
  · calc num.value < 2 ^ size num.value := lt_size_self _
      _ = 2 ^ (size div.value - 1) * 2 ^ (shift + 1) := by
          rw [← pow_add]
          congr 1
          omega
      _ ≤ div.value * 2 ^ (shift + 1) := mul_le_mul_right _ top
  · rw [value_zero]
    exact dvd_zero _

/-- `operator/=` with a divisor other than zero is the quotient. -/
theorem value_quotient (same : num.length = div.length) (nonzero : div.value ≠ 0)
    : (num.quotient div).value = num.value / div.value := by
  rw [quotient, bits_eq, bits_eq]
  split
  next shorter =>
    have less : num.value < div.value := (lt_size_self _).trans_le (lt_size.mp shorter)
    rw [value_zero, div_eq_of_lt less]
  next longer =>
    have aligned := (Nat.add_sub_cancel' (not_lt.mp longer)).symm
    exact divLoop_value (dividing_start same nonzero aligned)

end Resistance.Arith.Limbs

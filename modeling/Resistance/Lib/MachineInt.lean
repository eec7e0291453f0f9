import Mathlib.Tactic.Ring

/-! 64-bit integers as mathematical ones: an operation whose exact result is in range gives
that result.
-/

namespace Resistance.Lib.MachineInt

open Int

/-- The values of `Int64`. -/
def InRange (x : Int) : Prop := -2 ^ 63 ≤ x ∧ x < 2 ^ 63

theorem bmod_eq {x} (range : InRange x) : x.bmod (2 ^ 64) = x := by
  obtain ⟨low, high⟩ := range
  exact bmod_eq_of_le (by omega) (by omega)

theorem toInt_range (a : Int64) : InRange a.toInt :=
  ⟨a.le_toInt, a.toInt_lt⟩

variable {a b : Int64}

theorem toInt_add (range : InRange (a.toInt + b.toInt))
    : (a + b).toInt = a.toInt + b.toInt := by
  rw [Int64.toInt_add, bmod_eq range]

theorem toInt_sub (range : InRange (a.toInt - b.toInt))
    : (a - b).toInt = a.toInt - b.toInt := by
  rw [Int64.toInt_sub, bmod_eq range]

theorem toInt_neg (range : InRange (-a.toInt)) : (-a).toInt = -a.toInt := by
  rw [Int64.toInt_neg, bmod_eq range]

theorem toInt_mul (range : InRange (a.toInt * b.toInt))
    : (a * b).toInt = a.toInt * b.toInt := by
  rw [Int64.toInt_mul, bmod_eq range]

/-- Division of non-negative numbers cannot overflow. -/
theorem toInt_div (dividend : 0 ≤ a.toInt) (divisor : 0 ≤ b.toInt)
    : (a / b).toInt = a.toInt / b.toInt := by
  have quotient : 0 ≤ a.toInt / b.toInt := ediv_nonneg dividend divisor
  have small : a.toInt / b.toInt ≤ a.toInt := ediv_le_self _ dividend
  have upper := a.toInt_lt
  rw [Int64.toInt_div, tdiv_eq_ediv_of_nonneg dividend]
  exact bmod_eq ⟨by omega, by omega⟩

theorem toInt_mod (dividend : 0 ≤ a.toInt)
    : (a % b).toInt = a.toInt % b.toInt := by
  rw [Int64.toInt_mod, tmod_eq_emod_of_nonneg dividend]

theorem toInt_ofInt {x} (range : InRange x) : (Int64.ofInt x).toInt = x :=
  Int64.toInt_ofInt_of_le range.1 range.2

/-- Above the range a number only gets smaller when it is wrapped. -/
theorem toInt_ofInt_le {x} (low : -2 ^ 63 ≤ x) : (Int64.ofInt x).toInt ≤ x := by
  rcases lt_or_ge x (2 ^ 63) with inside | above
  · rw [toInt_ofInt ⟨low, inside⟩]
  · exact le_trans (le_of_lt (Int64.ofInt x).toInt_lt) above

/-- A negation that is not negative is exact. -/
theorem toInt_neg_of_nonneg (nonneg : 0 ≤ (-a).toInt)
    : (-a).toInt = -a.toInt := by
  obtain ⟨low, high⟩ := toInt_range a
  rcases lt_or_eq_of_le low with above | least
  · exact toInt_neg ⟨by omega, by omega⟩
  · rw [Int64.toInt_neg, ← least] at nonneg
    exact absurd nonneg (by decide)

/-- A loop that adds to a number computes the sum, as far as 64 bits can hold it. -/
theorem foldl_ofInt {α step delta} (adds : ∀ a x, step a x = a + Int64.ofInt (delta x))
    (xs : List α) (a : Int64)
    : xs.foldl step a = a + Int64.ofInt (xs.map delta).sum := by
  induction xs generalizing a with
  | nil => simp
  | cons x xs ih =>
    rw [List.foldl_cons, ih, adds, List.map_cons, List.sum_cons, Int64.ofInt_add, Int64.add_assoc]

theorem toNat_ofInt {x : Nat} (range : x < 2 ^ 64) : (UInt64.ofInt x).toNat = x := by
  rw [UInt64.ofInt, emod_eq_of_lt (by omega) (by exact_mod_cast range),
    toNat_natCast, UInt64.toNat_ofNat', Nat.mod_eq_of_lt range]

theorem toInt_toInt64 {a : UInt64} (range : a.toNat < 2 ^ 63) : a.toInt64.toInt = a.toNat := by
  have signed : a.toInt64.toInt = bmod a.toNat (2 ^ 64) := BitVec.toInt_eq_toNat_bmod _
  rw [signed]
  exact bmod_eq ⟨by omega, by exact_mod_cast range⟩

theorem ofInt_toNat (a : UInt64) : Int64.ofInt a.toNat = a.toInt64 := by
  have signed : a.toInt64.toInt = bmod a.toNat (2 ^ 64) := BitVec.toInt_eq_toNat_bmod _
  rw [← Int64.toInt_inj, signed, Int64.toInt_ofInt]
  rfl

theorem toNat_mul {a b : UInt64} (range : a.toNat * b.toNat < 2 ^ 64)
    : (a * b).toNat = a.toNat * b.toNat := by
  rw [UInt64.toNat_mul, Nat.mod_eq_of_lt range]

end Resistance.Lib.MachineInt

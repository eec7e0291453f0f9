import Mathlib.Algebra.Order.BigOperators.Group.List
import Resistance.Lib.MachineInt
import Resistance.Primitives.Transaction

/-! Amounts, from `amount.h`, and the sums of a transaction's values. Each partial sum is
checked, so that a sum that is returned is exact although it is computed in 64 bits.
-/

namespace Resistance.Consensus

open Primitives Lib List

def coin : CAmount := 100000000

def maxMoney : CAmount := 126000000 * coin

def moneyRange (nValue : CAmount) : Bool :=
  nValue ≥ 0 && nValue ≤ maxMoney

theorem maxMoney_toInt : maxMoney.toInt = 12600000000000000 := by decide

/-- The amounts that `MoneyRange` accepts, as integers. -/
def Money (x : Int) : Prop := 0 ≤ x ∧ x ≤ maxMoney.toInt

theorem moneyRange_iff {nValue}
    : moneyRange nValue = true ↔ Money nValue.toInt := by
  simp [moneyRange, Money, Int64.le_iff_toInt_le]

theorem Money.zero : Money (0 : CAmount).toInt :=
  ⟨by decide, by decide⟩

/-- A result that must lie in the unsigned 64-bit range. -/
def inUInt64 (x : Int) : Option Int := if 0 ≤ x ∧ x < 2 ^ 64 then some x else none

section

variable {x : Int} (low : 0 ≤ x) (high : x < 2 ^ 64)
include low high

theorem inUInt64_eq : inUInt64 x = some x := if_pos ⟨low, high⟩

theorem inUInt64_bind {f : Int → Option Int} : (inUInt64 x >>= f) = f x := by
  rw [inUInt64_eq low high]
  rfl

end

variable {a b x : CAmount} {xs : List CAmount}

/-- Two amounts do not overflow when they are added. -/
theorem Money.add (left : Money a.toInt) (right : Money b.toInt)
    : (a + b).toInt = a.toInt + b.toInt := by
  obtain ⟨left_nonneg, left_le⟩ := left
  obtain ⟨right_nonneg, right_le⟩ := right
  rw [maxMoney_toInt] at left_le right_le
  exact MachineInt.toInt_add ⟨by omega, by omega⟩

/-- One step of a checked sum: `nValue += x`, then both must be in range. -/
def addInRange (error : String) (nValue x : CAmount) : Except String CAmount :=
  if !moneyRange x || !moneyRange (nValue + x) then .error error else .ok (nValue + x)

def sumInRange (error : String) (nValue : CAmount) (xs : List CAmount)
    : Except String CAmount :=
  xs.foldlM (addInRange error) nValue

theorem addInRange_ok {error} (range : Money a.toInt) (run : addInRange error a x = .ok b)
    : Money x.toInt ∧ Money b.toInt ∧ b.toInt = a.toInt + x.toInt := by
  unfold addInRange at run
  split at run
  · cases run
  next fine =>
    simp only [Bool.or_eq_true, Bool.not_eq_true', not_or, Bool.not_eq_false] at fine
    obtain ⟨item, sum⟩ := fine
    rw [moneyRange_iff] at item sum
    cases run
    exact ⟨item, sum, range.add item⟩

theorem addInRange_of_le (error : String) (left : 0 ≤ a.toInt) (right : 0 ≤ x.toInt)
    (sum : a.toInt + x.toInt ≤ maxMoney.toInt)
    : ∃ b, addInRange error a x = .ok b ∧ b.toInt = a.toInt + x.toInt := by
  have added : (a + x).toInt = a.toInt + x.toInt := Money.add ⟨left, by omega⟩ ⟨right, by omega⟩
  have item : moneyRange x = true := moneyRange_iff.mpr ⟨right, by omega⟩
  have total : moneyRange (a + x) = true := moneyRange_iff.mpr ⟨by omega, by omega⟩
  exact ⟨a + x, by simp [addInRange, item, total], added⟩

/-- A checked sum that is returned is the sum of its items, all of them in range. -/
theorem sumInRange_ok {error} (range : Money a.toInt) (run : sumInRange error a xs = .ok b)
    : (∀ x ∈ xs, Money x.toInt) ∧ Money b.toInt
      ∧ b.toInt = a.toInt + (xs.map Int64.toInt).sum := by
  induction xs generalizing a with
  | nil =>
    cases run
    simpa using range
  | cons x xs ih =>
    obtain ⟨c, step, run⟩ := Checks.foldlM_cons_ok.mp run
    obtain ⟨item, middle, added⟩ := addInRange_ok range step
    obtain ⟨items, total, sum⟩ := ih middle run
    refine ⟨?_, total, ?_⟩
    · simpa using ⟨item, items⟩
    · rw [map_cons, sum_cons]
      omega

/-- Non-negative items whose sum is in range are summed without an exception. -/
theorem sumInRange_of_le (error : String) (start : 0 ≤ a.toInt) (items : ∀ x ∈ xs, 0 ≤ x.toInt)
    (sum : a.toInt + (xs.map Int64.toInt).sum ≤ maxMoney.toInt)
    : ∃ b, sumInRange error a xs = .ok b ∧ b.toInt = a.toInt + (xs.map Int64.toInt).sum := by
  induction xs generalizing a with
  | nil => exact ⟨a, rfl, by simp⟩
  | cons x xs ih =>
    simp only [mem_cons, forall_eq_or_imp] at items
    rw [map_cons, sum_cons] at sum ⊢
    have rest : 0 ≤ (xs.map Int64.toInt).sum := sum_nonneg (forall_mem_map.mpr items.2)
    obtain ⟨c, step, added⟩ := addInRange_of_le error start items.1 (by omega)
    obtain ⟨b, run, total⟩ := ih (a := c) (by omega) items.2 (by omega)
    refine ⟨b, ?_, by omega⟩
    rw [sumInRange, foldlM_cons, step]
    exact run

end Resistance.Consensus

namespace Resistance.Primitives.CTransaction

open Consensus Lib

/-- What the transaction takes from the transparent value pool, in the order in which
`GetValueOut` adds it.
-/
def valuesOut (tx : CTransaction) : List CAmount :=
  tx.vout.map CTxOut.nValue
  -- NB: negative valueBalance "takes" money from the transparent value pool
  ++ ((if tx.valueBalance ≤ 0 then [-tx.valueBalance] else [])
  -- NB: vpub_old "takes" money from the transparent value pool just as outputs do
  ++ tx.vJoinSplit.map JSDescription.vpubOld)

def getValueOut (tx : CTransaction) : Except String CAmount :=
  sumInRange "CTransaction::GetValueOut(): value out of range" 0 tx.valuesOut

/-- What the transaction's shielded parts give to the transparent value pool. -/
def shieldedValuesIn (tx : CTransaction) : List CAmount :=
  (if tx.valueBalance ≥ 0 then [tx.valueBalance] else [])
  ++ tx.vJoinSplit.map JSDescription.vpubNew

def getShieldedValueIn (tx : CTransaction) : Except String CAmount :=
  sumInRange "CTransaction::GetShieldedValueIn(): value out of range" 0 tx.shieldedValuesIn

-- What the transparent outputs, and the two shielded pools, get from a transaction.
def transparentOut (tx : CTransaction) : Int := (tx.vout.map fun txout => txout.nValue.toInt).sum

def intoSprout (tx : CTransaction) : Int :=
  (tx.vJoinSplit.map fun js => js.vpubOld.toInt - js.vpubNew.toInt).sum

def intoSapling (tx : CTransaction) : Int := -tx.valueBalance.toInt

theorem intoSprout_eq (tx : CTransaction)
    : tx.intoSprout = (tx.vJoinSplit.map fun js => js.vpubOld.toInt).sum
      - (tx.vJoinSplit.map fun js => js.vpubNew.toInt).sum := by
  rw [intoSprout]
  induction tx.vJoinSplit with
  | nil => rfl
  | cons js vJoinSplit ih =>
    simp only [List.map_cons, List.sum_cons]
    omega

variable {tx : CTransaction}

/-- `GetValueOut` is exact. -/
theorem getValueOut_ok {nValueOut} (run : tx.getValueOut = .ok nValueOut)
    : Money nValueOut.toInt
      ∧ nValueOut.toInt = tx.transparentOut + max 0 tx.intoSapling
        + (tx.vJoinSplit.map fun js => js.vpubOld.toInt).sum := by
  obtain ⟨items, range, sum⟩ := sumInRange_ok Money.zero run
  refine ⟨range, ?_⟩
  have balance : ((if tx.valueBalance ≤ 0 then [-tx.valueBalance] else []).map Int64.toInt).sum
      = max 0 tx.intoSapling := by
    rw [intoSapling]
    split
    next low =>
      have item : Money (-tx.valueBalance).toInt := items _ (by simp [valuesOut, low])
      have exact := MachineInt.toInt_neg_of_nonneg item.1
      have nonneg := item.1
      simp only [List.map_cons, List.map_nil, List.sum_cons, List.sum_nil]
      omega
    next high =>
      rw [Int64.le_iff_toInt_le, Int64.toInt_zero] at high
      simp only [List.map_nil, List.sum_nil]
      omega
  rw [valuesOut, List.map_append, List.map_append, List.sum_append, List.sum_append,
    List.map_map, List.map_map, Int64.toInt_zero] at sum
  simp only [Function.comp_def] at sum
  rw [transparentOut]
  omega

/-- `GetShieldedValueIn` is exact. -/
theorem getShieldedValueIn_ok {nValueIn} (run : tx.getShieldedValueIn = .ok nValueIn)
    : Money nValueIn.toInt
      ∧ nValueIn.toInt = max 0 (-tx.intoSapling)
        + (tx.vJoinSplit.map fun js => js.vpubNew.toInt).sum := by
  obtain ⟨_, range, sum⟩ := sumInRange_ok Money.zero run
  refine ⟨range, ?_⟩
  have balance : ((if tx.valueBalance ≥ 0 then [tx.valueBalance] else []).map Int64.toInt).sum
      = max 0 (-tx.intoSapling) := by
    rw [intoSapling]
    split
    next high =>
      rw [ge_iff_le, Int64.le_iff_toInt_le, Int64.toInt_zero] at high
      simp only [List.map_cons, List.map_nil, List.sum_cons, List.sum_nil]
      omega
    next low =>
      rw [ge_iff_le, Int64.le_iff_toInt_le, Int64.toInt_zero] at low
      simp only [List.map_nil, List.sum_nil]
      omega
  rw [shieldedValuesIn, List.map_append, List.sum_append, List.map_map, Int64.toInt_zero] at sum
  simp only [Function.comp_def] at sum
  omega

end Resistance.Primitives.CTransaction

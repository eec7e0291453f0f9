import Resistance.Sprout.Prover
import Resistance.Sprout.Treestate

/-! What a joinsplit pays adds up to what goes into it. -/

namespace Resistance.Sprout

open Primitives Consensus Lib Lib.Checks

theorem toNat_toUInt64 {a : CAmount} (nonneg : 0 ≤ a.toInt) : (a.toUInt64.toNat : Int) = a.toInt
    := by
  have le : 0 ≤ a := by
    rw [Int64.le_iff_toInt_le]
    exact nonneg
  rw [Int64.toNat_toUInt64_of_le le, Int64.toNatClampNeg]
  omega

/-- Two amounts do not overflow when they are subtracted. -/
theorem money_sub {a b : CAmount} (left : Money a.toInt) (right : Money b.toInt)
    : (a - b).toInt = a.toInt - b.toInt := by
  obtain ⟨leftNonneg, leftLe⟩ := left
  obtain ⟨rightNonneg, rightLe⟩ := right
  rw [maxMoney_toInt] at leftLe rightLe
  exact MachineInt.toInt_sub ⟨by omega, by omega⟩

def noteSum (inputs : List JSInput) : Nat :=
  ((inputs.map JSInput.note).map fun note => note.value.toNat).sum

def outputSum (outputs : List JSOutput) : Nat := (outputs.map fun output => output.value.toNat).sum

@[simp] theorem noteSum_nil : noteSum [] = 0 := rfl

theorem noteSum_append (left right : List JSInput)
    : noteSum (left ++ right) = noteSum left + noteSum right := by
  simp [noteSum]

theorem outputSum_head (outputs : List JSOutput) {dummy} (zero : dummy.value = 0)
    : outputSum outputs = (outputs.headD dummy).value.toNat + outputSum outputs.tail := by
  cases outputs with
  | nil => simp [zero]
  | cons output outputs => simp [outputSum]

/-- The value that goes in is divided without a rest, and nothing of the payment is lost. -/
structure Settled (last : Bool) (jsInputValue value vpubNewTarget : CAmount)
    (settlement : Settlement) : Prop where
  sent : 0 ≤ settlement.value.toInt
  kept : 0 ≤ settlement.jsChange.toInt
  published : settlement.vpubNew = if last then vpubNewTarget else 0
  divided : settlement.value.toInt + settlement.jsChange.toInt + settlement.vpubNew.toInt
    = jsInputValue.toInt
  owed : settlement.value.toInt + (settlement.due.getD 0).toInt = value.toInt
  due : ∀ due, settlement.due = some due
    → last = false ∧ 0 < due.toInt ∧ settlement.jsChange = 0

section

variable {insufficient : JoinSplitFailure} {last : Bool}
  {jsInputValue value vpubNewTarget : CAmount} {settlement : Settlement}
  (run : settle insufficient last jsInputValue value vpubNewTarget = .ok settlement)
include run

/-- What a settlement that was made publishes, and when it leaves something due. -/
theorem settle_returned
    : (last = true
        ∧ settlement = ⟨value, none, jsInputValue - (value + vpubNewTarget), vpubNewTarget⟩
        ∧ 0 ≤ (jsInputValue - (value + vpubNewTarget)).toInt)
      ∨ (last = false ∧ settlement = ⟨value, none, jsInputValue - value, 0⟩
        ∧ value.toInt ≤ jsInputValue.toInt)
      ∨ (last = false ∧ settlement = ⟨jsInputValue, some (value - jsInputValue), 0, 0⟩
        ∧ jsInputValue.toInt < value.toInt) := by
  cases last with
  | true =>
    obtain ⟨-, -, more⟩ := bind_ok.mp run
    obtain ⟨_, pos, isSettlement⟩ := bind_ok.mp more
    rw [throwIf_ok, not_not, ge_iff_le, Int64.le_iff_toInt_le] at pos
    cases isSettlement
    exact .inl ⟨rfl, rfl, pos⟩
  | false =>
    simp only [settle, Bool.false_eq_true, if_false] at run
    split at run
    next more =>
      rw [gt_iff_lt, Int64.lt_iff_toInt_lt] at more
      cases run
      exact .inr (.inl ⟨rfl, rfl, more.le⟩)
    next notMore =>
      rw [gt_iff_lt, Int64.lt_iff_toInt_lt] at notMore
      split at run
      next less =>
        rw [gt_iff_lt, Int64.lt_iff_toInt_lt] at less
        cases run
        exact .inr (.inr ⟨rfl, rfl, less⟩)
      next notLess =>
        rw [gt_iff_lt, Int64.lt_iff_toInt_lt] at notLess
        cases run
        obtain rfl : jsInputValue = value := by
          rw [← Int64.toInt_inj]
          omega
        exact .inr (.inl ⟨rfl, by rw [Int64.sub_self], le_refl _⟩)

/-- A settlement with amounts in range divides what goes in without a rest. -/
theorem settle_divided (input : Money jsInputValue.toInt) (sent : Money settlement.value.toInt)
    (new : Money settlement.vpubNew.toInt)
    : Settled last jsInputValue value vpubNewTarget settlement := by
  rcases settle_returned run with ⟨rfl, rfl, kept⟩ | ⟨rfl, rfl, enough⟩ | ⟨rfl, rfl, less⟩
  all_goals dsimp only at sent new
  · have outAmount := sent.add new
    have left : (jsInputValue - (value + vpubNewTarget)).toInt
        = jsInputValue.toInt - (value.toInt + vpubNewTarget.toInt) := by
      obtain ⟨inputNonneg, inputLe⟩ := input
      obtain ⟨sentNonneg, sentLe⟩ := sent
      obtain ⟨newNonneg, newLe⟩ := new
      rw [maxMoney_toInt] at inputLe sentLe newLe
      rw [MachineInt.toInt_sub ⟨by omega, by omega⟩, outAmount]
    refine ⟨sent.1, kept, rfl, ?_, by simp, nofun⟩
    simp only [left]
    omega
  · have left := money_sub input sent
    refine ⟨sent.1, ?_, rfl, ?_, by simp, nofun⟩
    · rw [left]
      omega
    · simp only [Int64.toInt_zero]
      omega
  · have rest : (value - jsInputValue).toInt = value.toInt - jsInputValue.toInt := by
      have := Int64.toInt_lt value
      have := input.1
      exact MachineInt.toInt_sub ⟨by omega, by omega⟩
    refine ⟨input.1, le_refl _, rfl, by simp, ?_, ?_⟩
    · simp only [Option.getD_some]
      omega
    · rintro _ ⟨⟩
      exact ⟨rfl, by omega, rfl⟩

end

/-- Amounts in range are settled. The last joinsplit must have enough for its recipient and for
the public pool.
-/
theorem settle_ok {last} {jsInputValue value vpubNewTarget} (insufficient : JoinSplitFailure)
    (input : Money jsInputValue.toInt) (amount : Money value.toInt)
    (target : Money vpubNewTarget.toInt)
    (covered : last = true → value.toInt + vpubNewTarget.toInt ≤ jsInputValue.toInt)
    : ∃ settlement, settle insufficient last jsInputValue value vpubNewTarget = .ok settlement
        ∧ Settled last jsInputValue value vpubNewTarget settlement := by
  have returns : ∃ settlement,
      settle insufficient last jsInputValue value vpubNewTarget = .ok settlement := by
    cases last with
    | true =>
      have enough := covered rfl
      have outAmount := amount.add target
      have outRange : Money (value + vpubNewTarget).toInt := by
        rw [outAmount]
        exact ⟨by have := amount.1; have := target.1; omega, enough.trans input.2⟩
      have left := money_sub input outRange
      have funded : ¬ jsInputValue < vpubNewTarget := by
        rw [Int64.lt_iff_toInt_lt]
        have := amount.1
        omega
      have pos : jsInputValue - (value + vpubNewTarget) ≥ 0 := by
        rw [ge_iff_le, Int64.le_iff_toInt_le, Int64.toInt_zero]
        omega
      simp only [settle, if_true, bind_ok, throwIf_ok, not_not]
      exact ⟨_, (), funded, (), pos, rfl⟩
    | false =>
      simp only [settle, Bool.false_eq_true, if_false]
      repeat' split
      all_goals exact ⟨_, rfl⟩
  obtain ⟨settlement, run⟩ := returns
  have ranges : Money settlement.value.toInt ∧ Money settlement.vpubNew.toInt := by
    have nothing : Money (0 : CAmount).toInt := ⟨by decide, by decide⟩
    rcases settle_returned run with ⟨-, rfl, -⟩ | ⟨-, rfl, -⟩ | ⟨-, rfl, -⟩
    · exact ⟨amount, target⟩
    · exact ⟨amount, nothing⟩
    · exact ⟨input, nothing⟩
  exact ⟨settlement, run, settle_divided run input ranges.1 ranges.2⟩

end Resistance.Sprout

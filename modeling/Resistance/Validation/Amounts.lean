import Resistance.Validation.ConnectBlock

/-! The amounts of an accepted transaction do not overflow. `CheckTransaction`, `GetValueOut`,
`GetShieldedValueIn` and `CheckTxInputs` each sum values in 64 bits, in orders of their own; the
sums that the first accepts are the exact ones that the others find.
-/

namespace Resistance.Validation

open List Primitives Consensus Coins Lib Lib.Checks CTransaction Int64

/-- Signed overflow has no defined behaviour, so it stops the check. -/
def Arithmetic.trapping : Arithmetic where
  add a b := do
    throwIf (a.toInt + b.toInt < -2 ^ 63 ∨ 2 ^ 63 ≤ a.toInt + b.toInt) .undefined
    return a + b
  neg a := do
    throwIf (2 ^ 63 ≤ -a.toInt) .undefined
    return -a

theorem trapping_add {a b} (left : Money a.toInt) (right : Money b.toInt)
    : Arithmetic.trapping.add a b = .ok (a + b) := by
  obtain ⟨left_nonneg, left_le⟩ := left
  obtain ⟨right_nonneg, right_le⟩ := right
  rw [maxMoney_toInt] at left_le right_le
  exact bind_ok.mpr ⟨(), throwIf_ok.mpr (by omega), rfl⟩

theorem trapping_neg {a} (low : -maxMoney.toInt ≤ a.toInt)
    : Arithmetic.trapping.neg a = .ok (-a) := by
  rw [maxMoney_toInt] at low
  exact bind_ok.mpr ⟨(), throwIf_ok.mpr (by omega), rfl⟩

theorem checkTotal_ok {total sum reason}
    : checkTotal total reason = .ok sum ↔ Money total.toInt ∧ total = sum := by
  simp only [checkTotal, bind_ok, throwIf_ok, pure_ok, Bool.not_eq_true', Bool.not_eq_false,
    moneyRange_iff, exists_const]

theorem addInRange_of_money (error : String) {a x} (item : Money x.toInt)
    (sum : Money (a + x).toInt)
    : addInRange error a x = .ok (a + x) := by
  rw [← moneyRange_iff] at item sum
  simp [addInRange, item, sum]

section Totals

variable (error : String) {tx : CTransaction} {a b : CAmount}

/-- What a step of the three loops shows: the next total is in range, an overflow trap would
not have stopped the step, and the step is the one that `GetValueOut` takes.
-/
theorem addTxOut_exact {txout} (start : Money a.toInt) (run : addTxOut .wrapping a txout = .ok b)
    : Money b.toInt ∧ addTxOut .trapping a txout = .ok b
      ∧ addInRange error a txout.nValue = .ok b := by
  have item := addTxOut_ok run
  have same : addTxOut .trapping a txout = addTxOut .wrapping a txout := by
    simp only [addTxOut, trapping_add start item]
    rfl
  have parts := run
  simp only [addTxOut, Arithmetic.wrapping, pure_bind, bind_ok, checkTotal_ok] at parts
  obtain ⟨_, _, _, _, sum, rfl⟩ := parts
  exact ⟨sum, same.trans run, addInRange_of_money error item sum⟩

theorem addJoinSplit_exact {joinsplit} (start : Money a.toInt)
    (run : addJoinSplit .wrapping a joinsplit = .ok b)
    : Money b.toInt ∧ addJoinSplit .trapping a joinsplit = .ok b
      ∧ addInRange error a joinsplit.vpubOld = .ok b := by
  have parts := run
  simp only [addJoinSplit, Arithmetic.wrapping, pure_bind, bind_ok, throwIf_ok, checkTotal_ok]
    at parts
  obtain ⟨_, negative, _, _, _, large, _, _, _, _, sum, rfl⟩ := parts
  rw [lt_iff_toInt_lt, not_lt] at negative
  rw [gt_iff_lt, lt_iff_toInt_lt, not_lt] at large
  have item : Money joinsplit.vpubOld.toInt := ⟨negative, large⟩
  have same : addJoinSplit .trapping a joinsplit = addJoinSplit .wrapping a joinsplit := by
    simp only [addJoinSplit, trapping_add start item]
    rfl
  exact ⟨sum, same.trans run, addInRange_of_money error item sum⟩

theorem addVpubNew_exact {joinsplit} (start : Money a.toInt)
    (run : addVpubNew .wrapping a joinsplit = .ok b)
    : Money b.toInt ∧ addVpubNew .trapping a joinsplit = .ok b
      ∧ addInRange error a joinsplit.vpubNew = .ok b := by
  have parts := run
  simp only [addVpubNew, Arithmetic.wrapping, bind_ok, pure_ok, throwIf_ok,
    exists_eq_left', Bool.or_eq_true, Bool.not_eq_true', not_or, Bool.not_eq_false,
    moneyRange_iff] at parts
  obtain ⟨_, ⟨item, sum⟩, rfl⟩ := parts
  have same : addVpubNew .trapping a joinsplit = addVpubNew .wrapping a joinsplit := by
    simp only [addVpubNew, trapping_add start item]
    rfl
  exact ⟨sum, same.trans run, addInRange_of_money error item sum⟩

theorem checkValueBalance_exact (start : Money a.toInt)
    (run : checkValueBalance .wrapping tx a = .ok b)
    : Money b.toInt ∧ checkValueBalance .trapping tx a = .ok b
      ∧ sumInRange error a (if tx.valueBalance ≤ 0 then [-tx.valueBalance] else []) = .ok b
      ∧ tx.valueBalance.toInt ≤ maxMoney.toInt := by
  have parts := run
  simp only [checkValueBalance, bind_ok, throwIf_ok, not_or, lt_iff_toInt_lt, not_lt] at parts
  obtain ⟨_, _, _, ⟨high, low⟩, total⟩ := parts
  have negMax : (-maxMoney).toInt = -maxMoney.toInt := by decide
  rw [negMax] at low
  by_cases negative : tx.valueBalance ≤ 0
  · have sign := negative
    rw [le_iff_toInt_le, toInt_zero] at sign
    have range := MachineInt.toInt_neg (a := tx.valueBalance)
      ⟨by rw [maxMoney_toInt] at low; omega, by rw [maxMoney_toInt] at low; omega⟩
    have item : Money (-tx.valueBalance).toInt := ⟨by omega, by omega⟩
    have same : checkValueBalance .trapping tx a = checkValueBalance .wrapping tx a := by
      simp only [checkValueBalance, trapping_neg low, ok_bind, trapping_add start item]
      rfl
    simp only [if_pos negative, Arithmetic.wrapping, pure_bind, checkTotal_ok] at total
    obtain ⟨sum, rfl⟩ := total
    refine ⟨sum, same.trans run, ?_, high⟩
    rw [if_pos negative]
    exact foldlM_cons_ok.mpr ⟨_, addInRange_of_money error item sum, rfl⟩
  · have same : checkValueBalance .trapping tx a = checkValueBalance .wrapping tx a := by
      simp only [checkValueBalance, checkValueBalance, if_neg negative]
    rw [if_neg negative, pure_ok] at total
    obtain rfl := total
    refine ⟨start, same.trans run, ?_, high⟩
    rw [if_neg negative]
    rfl

/-- A loop whose steps are exact is exact. -/
theorem loop_exact {α : Type} {step trapped : CAmount → α → Except Failure CAmount}
    {value} {xs : List α} (run : xs.foldlM step a = .ok b) (start : Money a.toInt)
    (steps : ∀ a x b, Money a.toInt → step a x = .ok b
      → Money b.toInt ∧ trapped a x = .ok b ∧ addInRange error a (value x) = .ok b)
    : Money b.toInt ∧ xs.foldlM trapped a = .ok b
      ∧ sumInRange error a (xs.map value) = .ok b := by
  obtain ⟨range, trappedRun⟩ := foldlM_transfer
    (fun start first => And.imp_right And.left (steps _ _ _ start first)) start run
  obtain ⟨_, sumRun⟩ := foldlM_transfer
    (fun start first => And.imp_right And.right (steps _ _ _ start first)) start run
  refine ⟨range, trappedRun, ?_⟩
  rw [sumInRange, foldlM_map]
  exact sumRun

end Totals

/-- What the transaction takes from the transparent value pool, as an integer. -/
def exactValueOut (tx : CTransaction) : Int :=
  (tx.vout.map fun txout => txout.nValue.toInt).sum + max 0 (-tx.valueBalance.toInt)
    + (tx.vJoinSplit.map fun joinsplit => joinsplit.vpubOld.toInt).sum

/-- What the shielded parts give to the transparent value pool, as an integer. -/
def exactShieldedValueIn (tx : CTransaction) : Int :=
  max 0 tx.valueBalance.toInt
    + (tx.vJoinSplit.map fun joinsplit => joinsplit.vpubNew.toInt).sum

/-- What the outputs that the inputs name hold in a view, spent or not. -/
def exactInputs (inputs : ViewState) (vin : List CTxIn) : Int :=
  (vin.map fun txin => ((inputs.coins.lookup txin.prevout.hash).bind
    (·.vout[txin.prevout.n.toNat]?)).elim 0 (·.nValue.toInt)).sum

section Accepted

variable {tx : CTransaction}

theorem sumInRange_append (error : String) {xs ys a b c} (first : sumInRange error a xs = .ok b)
    (second : sumInRange error b ys = .ok c)
    : sumInRange error a (xs ++ ys) = .ok c := by
  rw [sumInRange, foldlM_append]
  exact bind_ok.mpr ⟨b, first, second⟩

theorem checkValueOut_exact (run : checkValueOut .wrapping tx = .ok ())
    : checkValueOut .trapping tx = .ok ()
      ∧ (∃ nValueOut, tx.getValueOut = .ok nValueOut)
      ∧ tx.valueBalance.toInt ≤ maxMoney.toInt := by
  let error := "CTransaction::GetValueOut(): value out of range"
  simp only [checkValueOut, bind_ok] at run
  obtain ⟨outs, outsRun, balanced, balancedRun, total, totalRun, _⟩ := run
  obtain ⟨outsRange, outsTrap, outsSum⟩ :=
    loop_exact error outsRun Money.zero fun _ _ _ => addTxOut_exact error
  obtain ⟨balancedRange, balancedTrap, balancedSum, high⟩ :=
    checkValueBalance_exact error outsRange balancedRun
  obtain ⟨_, totalTrap, totalSum⟩ :=
    loop_exact error totalRun balancedRange fun _ _ _ => addJoinSplit_exact error
  refine ⟨?_, ⟨total, ?_⟩, high⟩
  · exact bind_ok.mpr ⟨outs, outsTrap, bind_ok.mpr ⟨balanced, balancedTrap,
      bind_ok.mpr ⟨total, totalTrap, rfl⟩⟩⟩
  · exact sumInRange_append error outsSum (sumInRange_append error balancedSum totalSum)

/-- The check adds the value balance last, `GetShieldedValueIn` adds it first. -/
theorem checkValueIn_exact (run : checkValueIn .wrapping tx = .ok ())
    (high : tx.valueBalance.toInt ≤ maxMoney.toInt)
    : checkValueIn .trapping tx = .ok ()
      ∧ ∃ nValueIn, tx.getShieldedValueIn = .ok nValueIn := by
  let error := "CTransaction::GetShieldedValueIn(): value out of range"
  simp only [checkValueIn, bind_ok] at run
  obtain ⟨news, newsRun, balanced⟩ := run
  obtain ⟨newsRange, newsTrap, newsSum⟩ :=
    loop_exact error newsRun Money.zero fun _ _ _ => addVpubNew_exact error
  obtain ⟨items, _, sum⟩ := sumInRange_ok Money.zero newsSum
  rw [toInt_zero] at sum
  by_cases pos : tx.valueBalance ≥ 0
  · have sign := pos
    rw [ge_iff_le, le_iff_toInt_le] at sign
    have item : Money tx.valueBalance.toInt := ⟨sign, high⟩
    simp only [if_pos pos, Arithmetic.wrapping, bind_ok, pure_ok, exists_eq_left',
      checkTotal_ok] at balanced
    obtain ⟨_, ⟨total, rfl⟩, _⟩ := balanced
    refine ⟨bind_ok.mpr ⟨news, newsTrap, ?_⟩, ?_⟩
    · simp only [if_pos pos, trapping_add newsRange item, ok_bind]
      exact bind_ok.mpr ⟨_, checkTotal_ok.mpr ⟨total, rfl⟩, rfl⟩
    have added := newsRange.add item
    have bound := total.2
    have nonneg : ∀ x ∈ tx.shieldedValuesIn, 0 ≤ x.toInt := by
      rw [shieldedValuesIn, if_pos pos, forall_mem_append, forall_mem_singleton]
      exact ⟨sign, fun x below => (items x below).1⟩
    have small : (0 : CAmount).toInt + (tx.shieldedValuesIn.map toInt).sum
        ≤ maxMoney.toInt := by
      rw [shieldedValuesIn, if_pos pos, map_append, sum_append, map_singleton, sum_singleton,
        toInt_zero]
      omega
    obtain ⟨nValueIn, summed, _⟩ := sumInRange_of_le error (a := 0) (Int.le_refl 0) nonneg
      small
    exact ⟨nValueIn, summed⟩
  · refine ⟨bind_ok.mpr ⟨news, newsTrap, ?_⟩, news, ?_⟩
    · rw [if_neg pos]
      rfl
    · rw [getShieldedValueIn, shieldedValuesIn, if_neg pos]
      exact newsSum

/-- A sum that is returned is the exact one. -/
theorem getShieldedValueIn_exact {nValueIn} (run : tx.getShieldedValueIn = .ok nValueIn)
    : Money nValueIn.toInt ∧ nValueIn.toInt = exactShieldedValueIn tx := by
  obtain ⟨range, sum⟩ := getShieldedValueIn_ok run
  rw [intoSapling, neg_neg] at sum
  exact ⟨range, sum⟩

variable {env : Environment} {hashes : Hashes} {params : Params} {inputs : ViewState}
  {nSpendHeight : Int}

theorem checkTxInputs_loop {vin a b} (start : Money a.toInt)
    (run : vin.foldlM (checkTxInput env params inputs tx nSpendHeight) a = .ok b)
    : Money b.toInt ∧ b.toInt = a.toInt + exactInputs inputs vin := by
  induction vin generalizing a with
  | nil =>
    cases run
    exact ⟨start, (Int.add_zero _).symm⟩
  | cons txin vin ih =>
    obtain ⟨middle, first, rest⟩ := foldlM_cons_ok.mp run
    obtain ⟨coins, txout, found, output, -, range, added⟩ := checkTxInput_ok start first
    obtain ⟨last, sum⟩ := ih range rest
    refine ⟨last, ?_⟩
    simp only [exactInputs, map_cons, sum_cons, found, Option.bind_some, output,
      Option.elim_some] at sum ⊢
    omega

/-- The fee is computed from sums that are all in range, and it is in range itself. -/
theorem checkTxInputs_fee (run : checkTxInputs env hashes params inputs tx nSpendHeight = .ok ())
    : Money (exactInputs inputs tx.vin + exactShieldedValueIn tx - exactValueOut tx) := by
  simp only [checkTxInputs, bind_ok, throwIf_ok, mapError_ok, Bool.not_eq_true',
    Bool.not_eq_false, moneyRange_iff] at run
  obtain ⟨_, _, _, _, _, _, total, summed, shielded, shieldedIn, _, range, out, valueOut,
    _, enough, _⟩ := run
  obtain ⟨totalRange, totalSum⟩ := checkTxInputs_loop Money.zero summed
  obtain ⟨shieldedRange, shieldedSum⟩ := getShieldedValueIn_exact shieldedIn
  obtain ⟨outRange, outSum⟩ : _ ∧ _ = exactValueOut tx := getValueOut_ok valueOut
  rw [toInt_zero] at totalSum
  rw [lt_iff_toInt_lt, totalRange.add shieldedRange] at enough
  rw [totalRange.add shieldedRange] at range
  have bound := range.2
  have nonneg := outRange.1
  exact ⟨by omega, by omega⟩

end Accepted

/-- The amounts of an accepted transaction do not overflow: the check makes no addition that
wraps, both sums of the transaction are returned, exact and in range, and so is the fee that
`CheckTxInputs` accepts in any view.
-/
theorem accepted_amounts_exact {tx : CTransaction}
    (accepted : checkTransactionWithoutProofVerification tx = .ok ())
    : checkTransactionWith .trapping tx = .ok ()
      ∧ (∃ nValueOut, tx.getValueOut = .ok nValueOut ∧ Money nValueOut.toInt
        ∧ nValueOut.toInt = exactValueOut tx)
      ∧ (∃ nValueIn, tx.getShieldedValueIn = .ok nValueIn ∧ Money nValueIn.toInt
        ∧ nValueIn.toInt = exactShieldedValueIn tx)
      ∧ ∀ (env : Environment) (hashes : Hashes) (params : Params) (inputs : ViewState)
          (nSpendHeight : Int),
        checkTxInputs env hashes params inputs tx nSpendHeight = .ok ()
          → Money (exactInputs inputs tx.vin + exactShieldedValueIn tx
            - exactValueOut tx) := by
  simp only [checkTransactionWithoutProofVerification, checkTransactionWith, bind_ok] at accepted
  obtain ⟨_, version, _, shape, _, valueOut, _, valueIn, _, duplicates, coinbase⟩ := accepted
  obtain ⟨trapOut, ⟨nValueOut, outRun⟩, high⟩ := checkValueOut_exact valueOut
  obtain ⟨trapIn, nValueIn, inRun⟩ := checkValueIn_exact valueIn high
  refine ⟨?_, ⟨nValueOut, outRun, getValueOut_ok outRun⟩,
    ⟨nValueIn, inRun, getShieldedValueIn_exact inRun⟩,
    fun env hashes params inputs nSpendHeight => checkTxInputs_fee⟩
  simp only [checkTransactionWith, bind_ok]
  exact ⟨_, version, _, shape, _, trapOut, _, trapIn, _, duplicates, coinbase⟩

/-- A transaction that shields money and takes some of it back out. -/
def samplePayment : CTransaction :=
  { sampleJoinSplit with
    vout := [{ nValue := 5 }]
    vJoinSplit := sampleJoinSplit.vJoinSplit.map fun joinsplit => { joinsplit with vpubNew := 7 } }

theorem accepted_amounts_exact_payment
    : checkTransactionWithoutProofVerification samplePayment = .ok ()
      ∧ checkTxInputs sampleEnvironment sampleHashes sampleParams.consensus sampleView
          samplePayment 1 = .ok ()
      ∧ Money (exactInputs sampleView samplePayment.vin + exactShieldedValueIn samplePayment
        - exactValueOut samplePayment) := by
  have accepted : checkTransactionWithoutProofVerification samplePayment = .ok () := by
    decide +kernel
  have inputs : checkTxInputs sampleEnvironment sampleHashes sampleParams.consensus sampleView
      samplePayment 1 = .ok () := by
    decide +kernel
  exact ⟨accepted, inputs, (accepted_amounts_exact accepted).2.2.2 _ _ _ _ _ inputs⟩

end Resistance.Validation

import Resistance.Wallet.Balance

/-! The retry loop of `CreateTransaction` ends, because every round asks for a larger fee than the
one before, up to the maximum.
-/

namespace Resistance.Wallet

open Primitives Consensus Policy Lib Lib.Checks

/-- What the rounds of the loop work on; `chances` are their random choices. -/
structure Payment where
  context : Context
  vecSend : List CRecipient
  coinControl : Option CCoinControl
  sign : Bool
  chances : Nat → Chance
  txNew : CMutableTransaction
  maxTxSize : Nat
  nValue : CAmount
  nSubtractFeeFromAmount : UInt32

namespace Payment

variable (payment : Payment)

def round (round : Nat) : CAmount → Except Failure RoundResult :=
  createRound payment.context payment.vecSend payment.coinControl payment.sign
    (payment.chances round) payment.txNew payment.maxTxSize payment.nValue
    payment.nSubtractFeeFromAmount

def loop : Nat → Nat → CAmount → Except Failure Created :=
  createLoop payment.context payment.vecSend payment.coinControl payment.sign payment.chances
    payment.txNew payment.maxTxSize payment.nValue payment.nSubtractFeeFromAmount

def maxTxFee : CAmount := payment.context.policy.maxTxFee

/-- The fee that a round of the loop tries, if the loop gets to it. -/
def feeTried : Nat → Option CAmount
  | 0 => some 0
  | round + 1 => do
    match payment.round round (← feeTried round) with
    | .ok (.more nFeeNeeded) => some nFeeNeeded
    | _ => none

variable {payment} {round : Nat} {nFeeRet nFeeNeeded : CAmount}

theorem feeTried_succ (tried : payment.feeTried (round + 1) = some nFeeNeeded)
    : ∃ nFeeRet, payment.feeTried round = some nFeeRet
      ∧ payment.round round nFeeRet = .ok (.more nFeeNeeded) := by
  obtain ⟨nFeeRet, before, next⟩ := Option.bind_eq_some_iff.mp tried
  refine ⟨nFeeRet, before, ?_⟩
  split at next
  next isMore =>
    cases next
    exact isMore
  next => cases next

/-- Every round adds to the fee, so there are no more rounds than the fee has units. -/
theorem feeTried_range (tried : payment.feeTried round = some nFeeRet)
    : (round : Int) ≤ nFeeRet.toInt ∧ nFeeRet.toInt ≤ payment.maxTxFee.toInt := by
  induction round generalizing nFeeRet with
  | zero =>
    cases tried
    exact ⟨Int.le_refl 0, payment.context.policy.maxTxFee_range.1⟩
  | succ round ih =>
    obtain ⟨earlier, before, run⟩ := feeTried_succ tried
    obtain ⟨low, most⟩ := ih before
    obtain ⟨grows, limit⟩ := createRound_more (by omega) most run
    exact ⟨by omega, limit⟩

/-- With enough rounds for the fees that are left, more rounds change nothing. -/
theorem loop_enough {fuel : Nat} (fee : 0 ≤ nFeeRet.toInt)
    (most : nFeeRet.toInt ≤ payment.maxTxFee.toInt)
    (enough : payment.maxTxFee.toInt < nFeeRet.toInt + fuel) (extra : Nat)
    : payment.loop (fuel + extra) round nFeeRet = payment.loop fuel round nFeeRet := by
  induction fuel generalizing round nFeeRet with
  | zero => omega
  | succ fuel ih =>
    rw [Nat.add_right_comm, loop, createLoop, createLoop]
    change (payment.round round nFeeRet >>= _) = payment.round round nFeeRet >>= _
    cases run : payment.round round nFeeRet with
    | error failure => rfl
    | ok result =>
      cases result with
      | done created => rfl
      | more nFeeNeeded =>
        obtain ⟨grows, limit⟩ := createRound_more fee most run
        exact ih (by omega) limit (by omega)

/-- The fees that the loop tries increase strictly, up to the maximum at most, so that it ends after
finitely many rounds, and those that are provided for are enough. Selected coins are different
coins that are worth what is reported and cover the target, as long as the target and the coins fit
a `CAmount`.
-/
theorem feeIteration_ends (payment : Payment)
    : (∀ round nFeeRet, payment.feeTried round = some nFeeRet
        → round ≤ payment.maxTxFee.toInt.toNat ∧ nFeeRet ≤ payment.maxTxFee
          ∧ ∀ nFeeNeeded, payment.feeTried (round + 1) = some nFeeNeeded → nFeeRet < nFeeNeeded)
      ∧ (∀ extra, payment.loop (payment.maxTxFee.toInt.toNat + 2 + extra) 0 0
          = payment.loop (payment.maxTxFee.toInt.toNat + 2) 0 0)
      ∧ (∀ chance call nTargetValue nConfMine nConfTheirs vCoins selection,
          Bounded (vCoins.map COutput.coin) → 0 ≤ nTargetValue.toInt
          → nTargetValue.toInt + cent.toInt < 2 ^ 63
          → selectCoinsMinConf chance call nTargetValue nConfMine nConfTheirs vCoins
            = some selection
          → Pays (vCoins.map COutput.coin) selection ∧ nTargetValue ≤ selection.nValueRet)
      ∧ ∀ (wallet : CWallet) chance fProtectCoinbase nTargetValue coinControl selection,
          sumOf (wallet.coinsInPlay fProtectCoinbase coinControl) < 2 ^ 63
          → 0 ≤ nTargetValue.toInt → nTargetValue.toInt + cent.toInt < 2 ^ 63
          → (wallet.selectCoins chance fProtectCoinbase nTargetValue coinControl).selection
            = some selection
          → Pays wallet.allCoins selection ∧ nTargetValue ≤ selection.nValueRet := by
  refine ⟨?_, ?_, ?_, ?_⟩
  · intro round nFeeRet tried
    obtain ⟨low, most⟩ := feeTried_range tried
    refine ⟨by omega, Int64.le_iff_toInt_le.mpr most, fun nFeeNeeded next => ?_⟩
    obtain ⟨earlier, before, run⟩ := feeTried_succ next
    cases tried.symm.trans before
    exact Int64.lt_iff_toInt_lt.mpr (createRound_more (by omega) most run).1
  · have zero : (0 : CAmount).toInt = 0 := rfl
    exact loop_enough (Int.le_refl 0) payment.context.policy.maxTxFee_range.1 (by omega)
  · intro chance call nTargetValue nConfMine nConfTheirs vCoins selection bounded pos room run
    obtain ⟨pays, enough⟩ := selectCoinsMinConf_ok bounded room pos run
    exact ⟨pays, enough⟩
  · intro wallet chance fProtectCoinbase nTargetValue coinControl selection bound pos room run
    obtain ⟨pays, enough⟩ := CWallet.selectCoins_ok room pos bound run
    exact ⟨pays, enough⟩

/-- Half of the coin takes a second round, and a hundredth is paid with the coin. -/
theorem feeIteration_ends_oneCoin
    : let payment : Payment := ⟨oneCoinContext false, halfCoin, none, true, fun _ => noChance,
        {}, 100000, coin / 2, 1⟩
      (∃ nFeeNeeded, payment.feeTried 1 = some nFeeNeeded ∧ 0 < nFeeNeeded)
      ∧ ∃ selection, (oneCoin.selectCoins noChance false cent none).selection = some selection
        ∧ Pays oneCoin.allCoins selection ∧ cent ≤ selection.nValueRet := by
  intro payment
  obtain ⟨fees, -, -, selectCoins⟩ := feeIteration_ends payment
  obtain ⟨nFeeNeeded, second⟩ : ∃ nFeeNeeded, payment.feeTried 1 = some nFeeNeeded :=
    Option.isSome_iff_exists.mp (by decide +kernel)
  obtain ⟨all, selected⟩ : ∃ selection,
      (oneCoin.selectCoins noChance false cent none).selection = some selection :=
    Option.isSome_iff_exists.mp (by decide +kernel)
  refine ⟨⟨nFeeNeeded, second, (fees 0 0 rfl).2.2 nFeeNeeded second⟩, all, selected, ?_⟩
  exact selectCoins _ _ _ _ _ _ (by decide +kernel) (by decide) (by decide) selected

/-- With the largest target, which wraps when `CENT` is added, a coin of 1 RES is selected. -/
theorem selection_short
    : ∃ selection, (oneCoin.selectCoins noChance false Int64.maxValue none).selection
        = some selection
      ∧ selection.nValueRet < Int64.maxValue := by
  have value : (oneCoin.selectCoins noChance false Int64.maxValue none).selection.map
      Selection.nValueRet = some coin := by decide +kernel
  obtain ⟨selection, selected, isCoin⟩ := Option.map_eq_some_iff.mp value
  exact ⟨selection, selected, isCoin ▸ by decide⟩

end Payment

end Resistance.Wallet

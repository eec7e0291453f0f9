import Resistance.Mining.CreateNewBlock
import Resistance.Policy.FeeRate
import Resistance.Wallet.CoinSelection

/-! `CreateTransaction` of `wallet.cpp`: a loop that selects coins for the payments and a fee,
until the fee is enough for the size of the transaction.
-/

namespace Resistance.Wallet

open Primitives Consensus Policy Mining Lib.Checks

def maxFreeTransactionCreateSize : Nat := 1000
def locktimeThreshold : UInt32 := 500000000

structure CRecipient where
  scriptPubKey : CScript
  nAmount : CAmount
  fSubtractFeeFromAmount : Bool

/-- The settings of the wallet, which are read with `ParseMoney`, and what the memory pool
estimates.
-/
structure FeePolicy where
  payTxFee : CFeeRate := {}
  fPayAtLeastCustomFee : Bool := true
  /-- `pool.estimateFee(nConfirmTarget)`. -/
  estimateFee : CFeeRate := {}
  minTxFee : CFeeRate := { nSatoshisPerK := 1000 }
  minRelayTxFee : CFeeRate := { nSatoshisPerK := 100 }
  maxTxFee : CAmount := 10000000
  fSendFreeTransactions : Bool := false
  mempooltxinputlimit : Nat := 0
  relay_parsed : minRelayTxFee.Parsed
  maxTxFee_range : 0 ≤ maxTxFee.toInt ∧ maxTxFee.toInt ≤ 10 ^ 18

/-- `GetMinimumFee`. -/
def getMinimumFee (policy : FeePolicy) (nTxBytes : Nat) : CAmount :=
  -- payTxFee is user-set "I want to pay this much"
  let nFeeNeeded := policy.payTxFee.getFee nTxBytes
  -- user selected total at least (default=true)
  let nFeeNeeded :=
    if policy.fPayAtLeastCustomFee ∧ nFeeNeeded > 0 ∧ nFeeNeeded < policy.payTxFee.getFeePerK then
      policy.payTxFee.getFeePerK
    else nFeeNeeded
  -- User didn't set: use -txconfirmtarget to estimate...
  let nFeeNeeded := if nFeeNeeded = 0 then policy.estimateFee.getFee nTxBytes else nFeeNeeded
  -- ... unless we don't have enough mempool data, in which case fall back to a hard-coded fee
  let nFeeNeeded := if nFeeNeeded = 0 then policy.minTxFee.getFee nTxBytes else nFeeNeeded
  -- prevent user from paying a non-sense fee (like 1 satoshi): 0 < fee < minRelayFee
  let nFeeNeeded :=
    if nFeeNeeded < policy.minRelayTxFee.getFee nTxBytes then policy.minRelayTxFee.getFee nTxBytes
    else nFeeNeeded
  -- But always obey the maximum
  if nFeeNeeded > policy.maxTxFee then policy.maxTxFee else nFeeNeeded

/-- What `CreateTransaction` reads besides its arguments. -/
structure Context where
  wallet : CWallet
  policy : FeePolicy
  params : Params
  expiryDeltaArg : Option UInt32 := none
  /-- `chainActive.Height()`. -/
  nHeight : Int
  /-- The script of a key from the key pool. -/
  reservedScript : CScript
  /-- `ProduceSignature` for an input, with real signatures or with dummies. -/
  produceSignature : Bool → CMutableTransaction → Nat → Coin → Option CScript
  /-- Whether the priority of the inputs suffices for a free transaction of the size. -/
  enoughPriority : List Coin → Nat → Bool
  sha256d : Bytes → Uint256

/-- The sum of the amounts, and how many recipients pay the fee. -/
def sumRecipients : List CRecipient → CAmount → UInt32 → Except Failure (CAmount × UInt32)
  | [], nValue, nSubtractFeeFromAmount => pure (nValue, nSubtractFeeFromAmount)
  | recipient :: vecSend, nValue, nSubtractFeeFromAmount => do
    throwIf (nValue < 0 ∨ recipient.nAmount < 0)
      (.error "Transaction amounts must be positive")
    sumRecipients vecSend (nValue + recipient.nAmount)
      (if recipient.fSubtractFeeFromAmount then nSubtractFeeFromAmount + 1
        else nSubtractFeeFromAmount)

/-- What a recipient gets before change is made. -/
def payee (nFeeRet : CAmount) (nSubtractFeeFromAmount : UInt32) (fFirst : Bool)
    (recipient : CRecipient)
    : CTxOut where
  nValue :=
    if recipient.fSubtractFeeFromAmount then
      -- Subtract fee equally from each selected recipient
      let nValue := recipient.nAmount - nFeeRet / Int64.ofInt nSubtractFeeFromAmount.toNat
      -- first receiver pays the remainder not divisible by output count
      if fFirst then nValue - nFeeRet % Int64.ofInt nSubtractFeeFromAmount.toNat else nValue
    else recipient.nAmount
  scriptPubKey := recipient.scriptPubKey

def dustReason (nFeeRet : CAmount) (recipient : CRecipient) (txout : CTxOut) : String :=
  if recipient.fSubtractFeeFromAmount ∧ nFeeRet > 0 then
    if txout.nValue < 0 then "The transaction amount is too small to pay the fee"
    else "The transaction amount is too small to send after the fee has been deducted"
  else "Transaction amount too small"

/-- vouts to the payees. -/
def payees (minRelayTxFee : CFeeRate) (nFeeRet : CAmount) (nSubtractFeeFromAmount : UInt32)
    : Bool → List CRecipient → Except Failure (List CTxOut)
  | _, [] => pure []
  | fFirst, recipient :: vecSend => do
    let txout := payee nFeeRet nSubtractFeeFromAmount fFirst recipient
    throwIf (isDust minRelayTxFee txout) (.error (dustReason nFeeRet recipient txout))
    let vout ← payees minRelayTxFee nFeeRet nSubtractFeeFromAmount
      (fFirst && !recipient.fSubtractFeeFromAmount) vecSend
    return txout :: vout

/-- Subtract the dust from the first recipient that pays the fee. -/
def deductDust (minRelayTxFee : CFeeRate) (nDust : CAmount)
    : List CRecipient → List CTxOut → Except Failure (List CTxOut)
  | recipient :: vecSend, txout :: vout =>
    if recipient.fSubtractFeeFromAmount then do
      let txout := { txout with nValue := txout.nValue - nDust }
      throwIf (isDust minRelayTxFee txout) (.error
        "The transaction amount is too small to send after the fee has been deducted")
      return txout :: vout
    else do
      let vout ← deductDust minRelayTxFee nDust vecSend vout
      return txout :: vout
  | _, vout => pure vout

/-- The outputs, the fee and the position of the change. -/
structure Outputs where
  vout : List CTxOut
  nFeeRet : CAmount
  nChangePosRet : Option Nat

/-- We do not move dust-change to fees, because the sender would end up paying more than
requested. So instead we raise the change and deduct from the recipient.
-/
def raiseChange (minRelayTxFee : CFeeRate) (vecSend : List CRecipient)
    (nSubtractFeeFromAmount : UInt32) (newTxOut : CTxOut) (vout : List CTxOut)
    : Except Failure (CTxOut × List CTxOut) :=
  if nSubtractFeeFromAmount > 0 ∧ isDust minRelayTxFee newTxOut then do
    let nDust := getDustThreshold minRelayTxFee newTxOut - newTxOut.nValue
    let vout ← deductDust minRelayTxFee nDust vecSend vout
    return ({ newTxOut with nValue := newTxOut.nValue + nDust }, vout)
  else return (newTxOut, vout)

/-- Fill a vout to ourself. -/
def makeChange (minRelayTxFee : CFeeRate) (chance : Chance) (vecSend : List CRecipient)
    (nSubtractFeeFromAmount : UInt32) (scriptChange : CScript) (nChange nFeeRet : CAmount)
    (vout : List CTxOut)
    : Except Failure Outputs :=
  if nChange > 0 then do
    let (newTxOut, vout) ← raiseChange minRelayTxFee vecSend nSubtractFeeFromAmount
      { nValue := nChange, scriptPubKey := scriptChange } vout
    -- Never create dust outputs; if we would, just add the dust to the fee.
    if isDust minRelayTxFee newTxOut then
      return { vout, nFeeRet := nFeeRet + nChange, nChangePosRet := none }
    else
      -- Insert change txn at random position
      let nChangePosRet := chance.position vout.length
      return { vout := vout.insertIdx nChangePosRet newTxOut, nFeeRet, nChangePosRet }
  else return { vout, nFeeRet, nChangePosRet := none }

/-- The reason why no coins were found. -/
def insufficientReason (fProtectCoinbase : Bool) (selected : CWallet.SelectCoins) : String :=
  if selected.fOnlyCoinbaseCoinsRet ∧ fProtectCoinbase then
    "Coinbase funds can only be sent to a zaddr"
  else if selected.fNeedCoinbaseCoinsRet ∧ fProtectCoinbase then
    "Insufficient funds, coinbase funds can only be spent after they have been sent to a zaddr"
  else "Insufficient funds"

/-- The sequence number is set to max()-1 so that the nLockTime actually works. -/
def inputOf (coin : Coin) : CTxIn where
  prevout := coin.outpoint
  nSequence := 0xFFFFFFFE

/-- `ProduceSignature` and `UpdateTransaction` for each input. -/
def signInputs (context : Context) (sign : Bool) (txNew : CMutableTransaction)
    (setCoins : List Coin)
    : Except Failure CMutableTransaction :=
  match setCoins.zipIdx.mapM fun (coin, nIn) => context.produceSignature sign txNew nIn coin with
  | none => .error (.error "Signing transaction failed")
  | some scripts => .ok { txNew with
      vin := txNew.vin.zipWith (fun txin scriptSig => { txin with scriptSig }) scripts }

/-- What `CreateTransaction` returns. -/
structure Created where
  wtxNew : CTransaction
  nFeeRet : CAmount
  nChangePosRet : Option Nat

/-- How a round ends: with the transaction, or with the fee that the next one has to pay. -/
inductive RoundResult where
  | done (created : Created)
  | more (nFeeNeeded : CAmount)

variable (context : Context) (vecSend : List CRecipient) (coinControl : Option CCoinControl)
  (sign : Bool)

/-- One round of the loop. -/
def createRound (chance : Chance) (txNew : CMutableTransaction) (maxTxSize : Nat)
    (nValue : CAmount) (nSubtractFeeFromAmount : UInt32) (nFeeRet : CAmount)
    : Except Failure RoundResult := do
  let policy := context.policy
  let nTotalValue := if nSubtractFeeFromAmount = 0 then nValue + nFeeRet else nValue
  let vout ← payees policy.minRelayTxFee nFeeRet nSubtractFeeFromAmount true vecSend
  -- Choose coins to use
  let fProtectCoinbase := context.params.fCoinbaseMustBeProtected
  let selected := context.wallet.selectCoins chance fProtectCoinbase nTotalValue coinControl
  match selected.selection with
  | none => .error (.error (insufficientReason fProtectCoinbase selected))
  | some selection => do
    let setCoins := chance.arrange selection.setCoinsRet
    let nChange := selection.nValueRet - nValue
    let nChange := if nSubtractFeeFromAmount = 0 then nChange - nFeeRet else nChange
    let outputs ← makeChange policy.minRelayTxFee chance vecSend nSubtractFeeFromAmount
      ((coinControl.bind CCoinControl.destChange).getD context.reservedScript) nChange nFeeRet vout
    let txNew := { txNew with vin := setCoins.map inputOf, vout := outputs.vout }
    -- Check mempooltxinputlimit to avoid creating a transaction which the local mempool rejects
    let limit := if context.params.networkUpgradeActive (context.nHeight + 1) .overwinter then 0
      else policy.mempooltxinputlimit
    let n := txNew.vin.length
    throwIf (limit > 0 ∧ n > limit) (.error s!"Too many transparent inputs {n} > limit {limit}")
    let signed ← signInputs context sign txNew setCoins
    let bytes ← signed.serialize.mapError .exception
    let nBytes := bytes.length
    -- Remove scriptSigs if we used dummy signatures for fee calculation
    let txNew := if sign then signed else txNew
    let wtxNew ← (CTransaction.copy context.sha256d txNew).mapError .exception
    throwIf (nBytes ≥ maxTxSize) (.error "Transaction too large")
    let created : Created :=
      { wtxNew, nFeeRet := outputs.nFeeRet, nChangePosRet := outputs.nChangePosRet }
    -- Can we complete this as a free transaction?
    if policy.fSendFreeTransactions ∧ nBytes ≤ maxFreeTransactionCreateSize
        ∧ context.enoughPriority setCoins nBytes then
      return .done created
    let nFeeNeeded := getMinimumFee policy nBytes
    throwIf (nFeeNeeded < policy.minRelayTxFee.getFee nBytes)
      (.error "Transaction too large for fee policy")
    -- Include more fee and try again.
    return if outputs.nFeeRet ≥ nFeeNeeded then .done created else .more nFeeNeeded

/-- The loop; `chances` are the random choices of each round. -/
def createLoop (chances : Nat → Chance) (txNew : CMutableTransaction) (maxTxSize : Nat)
    (nValue : CAmount) (nSubtractFeeFromAmount : UInt32)
    : Nat → Nat → CAmount → Except Failure Created
  | 0, _, _ => .error (.error "out of rounds")
  | fuel + 1, round, nFeeRet => do
    match ← createRound context vecSend coinControl sign (chances round) txNew maxTxSize nValue
      nSubtractFeeFromAmount nFeeRet with
    | .done created => return created
    | .more nFeeNeeded =>
      createLoop chances txNew maxTxSize nValue nSubtractFeeFromAmount fuel (round + 1)
        nFeeNeeded

/-- `nLockTime`: ten blocks back, and occasionally further (`GetRandInt(100)`). -/
def chooseLockTime (nHeight : Int) (back : Option Nat) : UInt32 :=
  let nLockTime := max 0 (nHeight - 10)
  UInt32.ofInt (match back with
    | none => nLockTime
    | some n => max 0 (nLockTime - n))

/-- `CreateTransaction`. The fee grows with every round and never exceeds the maximum, so that
there are no more rounds than there are fees.
-/
def createTransaction (chances : Nat → Chance) (back : Option Nat) : Except Failure Created := do
  let (nValue, nSubtractFeeFromAmount) ← sumRecipients vecSend 0 0
  throwIf (vecSend.length = 0 ∨ nValue < 0) (.error "Transaction amounts must be positive")
  let nextBlockHeight := context.nHeight + 1
  let txNew ← createNewContextualCMutableTransaction context.expiryDeltaArg context.params
    nextBlockHeight
  -- Activates after Overwinter network upgrade
  throwIf (context.params.networkUpgradeActive nextBlockHeight .overwinter
      ∧ txNew.nExpiryHeight ≥ txExpiryHeightThreshold)
    (.error "nExpiryHeight must be less than TX_EXPIRY_HEIGHT_THRESHOLD.")
  let maxTxSize := if context.params.networkUpgradeActive nextBlockHeight .sapling then
    maxTxSizeAfterSapling else maxTxSizeBeforeSapling
  let nLockTime := chooseLockTime context.nHeight back
  throwIf (¬ nLockTime ≤ UInt32.ofInt context.nHeight)
    (.assertion "txNew.nLockTime <= (unsigned int)chainActive.Height()")
  throwIf (¬ nLockTime < locktimeThreshold) (.assertion "txNew.nLockTime < LOCKTIME_THRESHOLD")
  createLoop context vecSend coinControl sign chances { txNew with nLockTime } maxTxSize nValue
    nSubtractFeeFromAmount (context.policy.maxTxFee.toInt.toNat + 2) 0 0

end Resistance.Wallet

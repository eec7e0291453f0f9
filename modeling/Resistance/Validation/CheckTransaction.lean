import Resistance.Validation.Environment

/-! The checks of a transaction that need no coins, from `main.cpp`: `CheckTransaction` and
`ContextualCheckTransaction`, and what a transaction that passes the first is like.
-/

namespace Resistance.Validation

open Primitives Consensus Lib.Checks

-- From `script/script.h`.
def locktimeThreshold : Int := 500000000

def checkVersion (tx : CTransaction) : Except Failure Unit :=
  if !tx.fOverwintered then
    throwIf (tx.nVersion < sproutMinTxVersion)
      (dos 100 rejectInvalid "bad-txns-version-too-low")
  else do
    throwIf (tx.nVersion < overwinterMinTxVersion)
      (dos 100 rejectInvalid "bad-tx-overwinter-version-too-low")
    throwIf (tx.nVersionGroupId ≠ overwinterVersionGroupId
        ∧ tx.nVersionGroupId ≠ saplingVersionGroupId)
      (dos 100 rejectInvalid "bad-tx-version-group-id")
    throwIf (tx.nExpiryHeight ≥ txExpiryHeightThreshold)
      (dos 100 rejectInvalid "bad-tx-expiry-height-too-high")

/-- The limits on the parts of a transaction, and on its size. -/
def checkShape (tx : CTransaction) : Except Failure Unit := do
  throwIf (tx.vin = [] ∧ tx.vJoinSplit = [] ∧ tx.vShieldedSpend = [])
    (dos 10 rejectInvalid "bad-txns-vin-empty")
  throwIf (tx.vout = [] ∧ tx.vJoinSplit = [] ∧ tx.vShieldedOutput = [])
    (dos 10 rejectInvalid "bad-txns-vout-empty")
  let size ← tx.getSerializeSize.mapError .exception
  throwIf (size > maxTxSizeAfterSapling) (dos 100 rejectInvalid "bad-txns-oversize")

/-- `if (!MoneyRange(total)) …`, then `total` is the new sum. -/
def checkTotal (total : CAmount) (reason : String) : Except Failure CAmount := do
  throwIf (!moneyRange total) (dos 100 rejectInvalid reason)
  return total

/-- How a check adds and negates amounts. -/
structure Arithmetic where
  add : CAmount → CAmount → Except Failure CAmount
  neg : CAmount → Except Failure CAmount

/-- Two's complement. -/
def Arithmetic.wrapping : Arithmetic where
  add a b := pure (a + b)
  neg a := pure (-a)

section Values

variable (arithmetic : Arithmetic)

def addTxOut (nValueOut : CAmount) (txout : CTxOut) : Except Failure CAmount := do
  throwIf (txout.nValue < 0) (dos 100 rejectInvalid "bad-txns-vout-negative")
  throwIf (txout.nValue > maxMoney) (dos 100 rejectInvalid "bad-txns-vout-toolarge")
  checkTotal (← arithmetic.add nValueOut txout.nValue) "bad-txns-txouttotal-toolarge"

def checkValueBalance (tx : CTransaction) (nValueOut : CAmount)
    : Except Failure CAmount := do
  throwIf (tx.vShieldedSpend = [] ∧ tx.vShieldedOutput = [] ∧ tx.valueBalance ≠ 0)
    (dos 100 rejectInvalid "bad-txns-valuebalance-nonzero")
  throwIf (tx.valueBalance > maxMoney ∨ tx.valueBalance < -maxMoney)
    (dos 100 rejectInvalid "bad-txns-valuebalance-toolarge")
  -- NB: negative valueBalance "takes" money from the transparent value pool
  if tx.valueBalance ≤ 0 then
    checkTotal (← arithmetic.add nValueOut (← arithmetic.neg tx.valueBalance))
      "bad-txns-txouttotal-toolarge"
  else return nValueOut

def addJoinSplit (nValueOut : CAmount) (joinsplit : JSDescription)
    : Except Failure CAmount := do
  throwIf (joinsplit.vpubOld < 0) (dos 100 rejectInvalid "bad-txns-vpub_old-negative")
  throwIf (joinsplit.vpubNew < 0) (dos 100 rejectInvalid "bad-txns-vpub_new-negative")
  throwIf (joinsplit.vpubOld > maxMoney) (dos 100 rejectInvalid "bad-txns-vpub_old-toolarge")
  throwIf (joinsplit.vpubNew > maxMoney) (dos 100 rejectInvalid "bad-txns-vpub_new-toolarge")
  throwIf (joinsplit.vpubNew ≠ 0 ∧ joinsplit.vpubOld ≠ 0)
    (dos 100 rejectInvalid "bad-txns-vpubs-both-nonzero")
  checkTotal (← arithmetic.add nValueOut joinsplit.vpubOld) "bad-txns-txouttotal-toolarge"

/-- The transparent value that a transaction takes. -/
def checkValueOut (tx : CTransaction) : Except Failure Unit := do
  let nValueOut ← tx.vout.foldlM (addTxOut arithmetic) 0
  let nValueOut ← checkValueBalance arithmetic tx nValueOut
  let _ ← tx.vJoinSplit.foldlM (addJoinSplit arithmetic) nValueOut

def addVpubNew (nValueIn : CAmount) (joinsplit : JSDescription) : Except Failure CAmount := do
  let total ← arithmetic.add nValueIn joinsplit.vpubNew
  throwIf (!moneyRange joinsplit.vpubNew || !moneyRange total)
    (dos 100 rejectInvalid "bad-txns-txintotal-toolarge")
  return total

/-- The transparent value that the shielded parts claim to give. -/
def checkValueIn (tx : CTransaction) : Except Failure Unit := do
  let nValueIn ← tx.vJoinSplit.foldlM (addVpubNew arithmetic) 0
  if tx.valueBalance ≥ 0 then
    let _ ← checkTotal (← arithmetic.add nValueIn tx.valueBalance)
      "bad-txns-txintotal-toolarge"
  else pure ()

end Values

def checkDuplicates (tx : CTransaction) : Except Failure Unit := do
  checkDistinct (dos 100 rejectInvalid "bad-txns-inputs-duplicate")
    [] (tx.vin.map CTxIn.prevout)
  checkDistinct (dos 100 rejectInvalid "bad-joinsplits-nullifiers-duplicate")
    [] tx.sproutNullifiers
  checkDistinct (dos 100 rejectInvalid "bad-spend-description-nullifiers-duplicate")
    [] tx.saplingNullifiers

def checkCoinBase (tx : CTransaction) : Except Failure Unit :=
  if tx.isCoinBase then do
    throwIf (tx.vJoinSplit ≠ []) (dos 100 rejectInvalid "bad-cb-has-joinsplits")
    throwIf (tx.vShieldedSpend ≠ []) (dos 100 rejectInvalid "bad-cb-has-spend-description")
    throwIf (tx.vShieldedOutput ≠ []) (dos 100 rejectInvalid "bad-cb-has-output-description")
    match tx.vin with
    | [] => .error .undefined
    | txin :: _ =>
      throwIf (txin.scriptSig.length < 2 ∨ txin.scriptSig.length > 100)
        (dos 100 rejectInvalid "bad-cb-length")
  else
    forM tx.vin fun txin =>
      throwIf txin.prevout.isNull (dos 10 rejectInvalid "bad-txns-prevout-null")

/-- `CheckTransactionWithoutProofVerification`, with its additions as a parameter. -/
def checkTransactionWith (arithmetic : Arithmetic) (tx : CTransaction) : Except Failure Unit := do
  checkVersion tx
  checkShape tx
  checkValueOut arithmetic tx
  checkValueIn arithmetic tx
  checkDuplicates tx
  checkCoinBase tx

def checkTransactionWithoutProofVerification : CTransaction → Except Failure Unit :=
  checkTransactionWith .wrapping

/-- `CheckTransaction`, with the strict or with the disabled proof verifier. -/
def checkTransaction (env : Environment) (strict : Bool) (tx : CTransaction)
    : Except Failure Unit := do
  checkTransactionWithoutProofVerification tx
  forM tx.vJoinSplit fun joinsplit =>
    throwIf (!env.joinSplitVerify strict joinsplit tx.joinSplitPubKey)
      (dos 100 rejectInvalid "bad-txns-joinsplit-verification-failed")

def isExpiredTx (tx : CTransaction) (nBlockHeight : Int) : Bool :=
  if tx.nExpiryHeight == 0 || tx.isCoinBase then false
  else UInt32.ofInt nBlockHeight > tx.nExpiryHeight

def isFinalTx (tx : CTransaction) (nBlockHeight nBlockTime : Int) : Bool :=
  let nLockTime : Int := tx.nLockTime.toNat
  if nLockTime = 0 then true
  else if nLockTime < (if nLockTime < locktimeThreshold then nBlockHeight else nBlockTime) then
    true
  else tx.vin.all (·.nSequence == 0xFFFFFFFF)

section Contextual

variable (env : Environment) (chainparams : CChainParams) (tx : CTransaction) (nHeight : Int)
  (dosLevel : Int)

def overwinterActive : Bool := chainparams.consensus.networkUpgradeActive nHeight .overwinter

def saplingActive : Bool := chainparams.consensus.networkUpgradeActive nHeight .sapling

/-- The level for failures that are expected while blocks are downloaded. -/
def relaxedDosLevel (level : Int) : Int := if env.isInitialBlockDownload then 0 else level

/-- The version rules of the epoch. -/
def contextualCheckVersion : Except Failure Unit :=
  if saplingActive chainparams nHeight then do
    throwIf (tx.nVersion ≥ saplingMinTxVersion ∧ ¬ tx.fOverwintered)
      (dos dosLevel rejectInvalid "tx-overwintered-flag-not-set")
    throwIf (tx.fOverwintered ∧ tx.nVersionGroupId ≠ saplingVersionGroupId)
      (dos (relaxedDosLevel env dosLevel) rejectInvalid "bad-sapling-tx-version-group-id")
    throwIf (tx.fOverwintered ∧ tx.nVersion < saplingMinTxVersion)
      (dos 100 rejectInvalid "bad-tx-sapling-version-too-low")
    throwIf (tx.fOverwintered ∧ tx.nVersion > saplingMaxTxVersion)
      (dos 100 rejectInvalid "bad-tx-sapling-version-too-high")
  else if overwinterActive chainparams nHeight then do
    throwIf (tx.nVersion ≥ overwinterMinTxVersion ∧ ¬ tx.fOverwintered)
      (dos dosLevel rejectInvalid "tx-overwinter-flag-not-set")
    throwIf (tx.fOverwintered ∧ tx.nVersionGroupId ≠ overwinterVersionGroupId)
      (dos (relaxedDosLevel env dosLevel) rejectInvalid "bad-overwinter-tx-version-group-id")
    throwIf (tx.fOverwintered ∧ tx.nVersion > overwinterMaxTxVersion)
      (dos 100 rejectInvalid "bad-tx-overwinter-version-too-high")
  else pure ()

/-- The rules of Overwinter and later, and the size limit before Sapling. -/
def contextualCheckEpoch : Except Failure Unit := do
  throwIf (overwinterActive chainparams nHeight ∧ ¬ tx.fOverwintered)
    (dos dosLevel rejectInvalid "tx-overwinter-active")
  -- no larger ban score if the transaction only just expired
  throwIf (overwinterActive chainparams nHeight ∧ isExpiredTx tx nHeight)
    (dos (if isExpiredTx tx (nHeight - 1) then dosLevel else 0) rejectInvalid
      "tx-overwinter-expired")
  if saplingActive chainparams nHeight then pure ()
  else do
    let size ← tx.getSerializeSize.mapError .exception
    throwIf (size > maxTxSizeBeforeSapling) (dos 100 rejectInvalid "bad-txns-oversize")

/-- The signatures and proofs of the shielded parts. -/
def contextualCheckShielded : Except Failure Unit :=
  if tx.vJoinSplit = [] ∧ tx.vShieldedSpend = [] ∧ tx.vShieldedOutput = [] then pure ()
  else
    match env.signatureHash tx nHeight with
    | none => .error (dos 100 rejectInvalid "error-computing-signature-hash")
    | some dataToBeSigned => do
      throwIf (tx.vJoinSplit ≠ [] ∧ ¬ env.joinSplitSigVerify tx dataToBeSigned)
        (dos (relaxedDosLevel env 100) rejectInvalid "bad-txns-invalid-joinsplit-signature")
      forM tx.vShieldedSpend fun spend =>
        throwIf (!env.saplingCheckSpend tx spend dataToBeSigned)
          (dos 100 rejectInvalid "bad-txns-sapling-spend-description-invalid")
      forM tx.vShieldedOutput fun output =>
        throwIf (!env.saplingCheckOutput tx output)
          (dos 100 rejectInvalid "bad-txns-sapling-output-description-invalid")
      throwIf ((tx.vShieldedSpend ≠ [] ∨ tx.vShieldedOutput ≠ [])
          ∧ ¬ env.saplingFinalCheck tx dataToBeSigned)
        (dos 100 rejectInvalid "bad-txns-sapling-binding-signature-invalid")

def contextualCheckTransaction : Except Failure Unit := do
  throwIf (¬ overwinterActive chainparams nHeight ∧ tx.fOverwintered)
    (dos (relaxedDosLevel env dosLevel) rejectInvalid "tx-overwinter-not-active")
  contextualCheckVersion env chainparams tx nHeight dosLevel
  contextualCheckEpoch chainparams tx nHeight dosLevel
  contextualCheckShielded env tx nHeight

end Contextual

/-- What `CheckTransaction` ensures, as far as coins and pools depend on it. -/
structure Checked (tx : CTransaction) : Prop where
  /-- Without inputs there are joinsplits or shielded spends. -/
  funded : tx.vin ≠ [] ∨ tx.vJoinSplit ≠ [] ∨ tx.vShieldedSpend ≠ []
  outputs : ∀ txout ∈ tx.vout, Money txout.nValue.toInt
  inputs : (tx.vin.map CTxIn.prevout).Nodup
  sprout : tx.sproutNullifiers.Nodup
  sapling : tx.saplingNullifiers.Nodup
  /-- A coinbase has no shielded parts. -/
  coinbase : tx.isCoinBase = true → tx.vJoinSplit = [] ∧ tx.vShieldedSpend = []
    ∧ tx.vShieldedOutput = [] ∧ tx.valueBalance = 0

theorem addTxOut_ok {arithmetic nValueOut sum txout}
    (run : addTxOut arithmetic nValueOut txout = .ok sum)
    : Money txout.nValue.toInt := by
  simp only [addTxOut, bind_ok] at run
  obtain ⟨_, negative, _, large, _⟩ := run
  constructor
  · simpa [Int64.lt_iff_toInt_lt] using negative
  · simpa [Int64.lt_iff_toInt_lt] using large

theorem checked_of_checkTransaction {env strict tx u} (run : checkTransaction env strict tx = .ok u)
    : Checked tx := by
  simp only [checkTransaction, checkTransactionWithoutProofVerification, checkTransactionWith,
    bind_ok] at run
  obtain ⟨_, ⟨_, _, _, shape, _, valueOut, _, _, _, duplicates, coinbase⟩, _⟩ := run
  simp only [checkShape, bind_ok, throwIf_ok] at shape
  simp only [checkValueOut, bind_ok] at valueOut
  simp only [checkDuplicates, bind_ok] at duplicates
  obtain ⟨_, funded, _⟩ := shape
  obtain ⟨total, summed, rest, balanced, _⟩ := valueOut
  obtain ⟨_, inputs, _, sprout, sapling⟩ := duplicates
  refine {
    funded := by
      by_contra none
      simp only [not_or, not_not] at none
      exact funded none
    outputs := fun txout mem => ?_
    inputs := (checkDistinct_ok inputs).1
    sprout := (checkDistinct_ok sprout).1
    sapling := (checkDistinct_ok sapling).1
    coinbase := fun isCoinBase => ?_ }
  · obtain ⟨_, _, accepted⟩ := foldlM_accepts summed mem
    exact addTxOut_ok accepted
  · simp only [checkCoinBase, isCoinBase, if_true, bind_ok, throwIf_ok, not_not] at coinbase
    obtain ⟨_, joinsplits, _, spends, _, outputs, _⟩ := coinbase
    simp only [checkValueBalance, bind_ok, throwIf_ok] at balanced
    obtain ⟨_, sources, _⟩ := balanced
    refine ⟨joinsplits, spends, outputs, ?_⟩
    by_contra nonzero
    exact sources ⟨spends, outputs, nonzero⟩

end Resistance.Validation

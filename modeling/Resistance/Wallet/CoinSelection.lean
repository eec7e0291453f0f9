import Resistance.Consensus.Params
import Resistance.Lib.Masks

/-! How `wallet.cpp` selects the coins that pay for a transaction. -/

namespace Resistance.Wallet

open Primitives Consensus Lib.Masks List

def cent : CAmount := 1000000

-- `isminetype`, as `IsMine` returns it.
inductive IsMine where
  | no
  | watchOnly
  | spendable
  deriving DecidableEq

/-- A transaction of the wallet, with what the chain and the memory pool say of it. -/
structure CWalletTx extends CTransaction where
  /-- `CheckFinalTx`. -/
  isFinal : Bool
  isTrusted : Bool
  blocksToMaturity : Int
  /-- `GetDepthInMainChain`. -/
  nDepth : Int
  /-- `IsFromMe(ISMINE_ALL)`. -/
  isFromMe : Bool
  deriving DecidableEq

/-- The transactions are in a map from their hashes. They have passed `CheckTransaction`, which
limits the number of their outputs and the values of these.
-/
structure CWallet where
  mapWallet : List CWalletTx
  isMine : CTxOut → IsMine
  isSpent : Uint256 → Nat → Bool
  isLockedCoin : Uint256 → Nat → Bool
  bSpendZeroConfChange : Bool
  distinct : (mapWallet.map fun tx => tx.hash).Nodup
  outputs : ∀ tx ∈ mapWallet, tx.vout.length ≤ maxBlockSize
  values : ∀ tx ∈ mapWallet, ∀ out ∈ tx.vout, moneyRange out.nValue = true

-- `pair<const CWalletTx*, unsigned int>`; transactions of the map differ as their addresses do.
abbrev Coin := CWalletTx × Nat

instance : LawfulBEq Coin := inferInstance

/-- `coin.first->vout[coin.second].nValue`. -/
def Coin.value (coin : Coin) : CAmount := (coin.1.vout.getD coin.2 {}).nValue

/-- `COutPoint(coin.first->GetHash(), coin.second)`. -/
def Coin.outpoint (coin : Coin) : COutPoint where
  hash := coin.1.hash
  n := UInt32.ofNat coin.2

structure COutput where
  tx : CWalletTx
  i : Nat
  nDepth : Int
  fSpendable : Bool
  deriving DecidableEq

def COutput.coin (output : COutput) : Coin := (output.tx, output.i)

/-- Coin control; `destChange` is the script of the destination. -/
structure CCoinControl where
  destChange : Option CScript := none
  /-- If false, allows unselected inputs, but requires all selected inputs be used. -/
  fAllowOtherInputs : Bool := false
  setSelected : List COutPoint := []
  distinct : setSelected.Nodup

namespace CCoinControl

def hasSelected (coinControl : CCoinControl) : Bool := coinControl.setSelected.length > 0

def isSelected (coinControl : CCoinControl) (hash : Uint256) (n : Nat) : Bool :=
  { hash, n := UInt32.ofNat n } ∈ coinControl.setSelected

end CCoinControl

/-- Whether coin control leaves a coin in the choice. -/
def allowsCoin (coinControl : Option CCoinControl) (hash : Uint256) (n : Nat) : Bool :=
  match coinControl with
  | none => true
  | some control =>
    !control.hasSelected || control.fAllowOtherInputs || control.isSelected hash n

namespace CWallet

/-- `AvailableCoins`. -/
def availableCoins (wallet : CWallet) (fOnlyConfirmed : Bool) (coinControl : Option CCoinControl)
    (fIncludeZeroValue fIncludeCoinBase : Bool)
    : List COutput :=
  wallet.mapWallet.flatMap fun pcoin =>
    if !pcoin.isFinal || (fOnlyConfirmed && !pcoin.isTrusted)
        || (pcoin.isCoinBase && !fIncludeCoinBase)
        || (pcoin.isCoinBase && pcoin.blocksToMaturity > 0) || pcoin.nDepth < 0 then []
    else (range pcoin.vout.length).filterMap fun i =>
      let mine := wallet.isMine (pcoin.vout.getD i {})
      if !wallet.isSpent pcoin.hash i && mine ≠ .no && !wallet.isLockedCoin pcoin.hash i
          && ((pcoin.vout.getD i {}).nValue > 0 || fIncludeZeroValue)
          && allowsCoin coinControl pcoin.hash i then
        some { tx := pcoin, i, nDepth := pcoin.nDepth, fSpendable := mine = .spendable }
      else none

end CWallet

/-- The variables of `ApproximateBestSubset`. -/
structure Subset where
  vfIncluded : List Bool := []
  nTotal : CAmount := 0
  fReachedTarget : Bool := false
  vfBest : List Bool
  nBest : CAmount

/-- The body of the innermost loop; `pick` is the condition of its coin. -/
def includeCoin (values : List CAmount) (nTargetValue : CAmount) (pick : Nat → Bool → Bool)
    (subset : Subset) (i : Nat)
    : Subset :=
  if pick i (subset.vfIncluded.getD i false) then
    let nTotal := subset.nTotal + values.getD i 0
    let vfIncluded := subset.vfIncluded.set i true
    if nTotal ≥ nTargetValue then
      {
        vfIncluded := vfIncluded.set i false
        nTotal := nTotal - values.getD i 0
        fReachedTarget := true
        vfBest := if nTotal < subset.nBest then vfIncluded else subset.vfBest
        nBest := if nTotal < subset.nBest then nTotal else subset.nBest
      }
    else { subset with vfIncluded, nTotal }
  else subset

/-- One repetition: coins at random, then all that are left until the target is reached. -/
def repeatSubset (values : List CAmount) (nTargetValue : CAmount) (flip : Nat → Bool)
    (subset : Subset)
    : Subset :=
  let start := { subset with
    vfIncluded := replicate values.length false
    nTotal := 0
    fReachedTarget := false }
  let first := (range values.length).foldl
    (includeCoin values nTargetValue fun i _ => flip i) start
  if first.fReachedTarget then first
  else (range values.length).foldl
    (includeCoin values nTargetValue fun _ included => !included) first

/-- `ApproximateBestSubset`: which coins are in the best subset, and its value. `flip nRep i`
is `insecure_rand() & 1`.
-/
def approximateBestSubset (flip : Nat → Nat → Bool) (values : List CAmount)
    (nTotalLower nTargetValue : CAmount) (iterations : Nat)
    : Subset :=
  (range iterations).foldl
    (fun subset nRep =>
      if subset.nBest ≠ nTargetValue then repeatSubset values nTargetValue (flip nRep) subset
      else subset)
    { vfBest := replicate values.length true, nBest := nTotalLower }

/-- What the code takes from random numbers, and from the order of addresses in a set. -/
structure Chance where
  /-- `random_shuffle`, in each call of `SelectCoinsMinConf`. -/
  shuffle : Nat → List COutput → List COutput
  shuffle_perm : ∀ call vCoins, (shuffle call vCoins).Perm vCoins
  /-- `insecure_rand() & 1`, in each call of `SelectCoinsMinConf` and of
  `ApproximateBestSubset`. -/
  flip : Nat → Nat → Nat → Nat → Bool
  arrange : List Coin → List Coin
  arrange_perm : ∀ setCoins, (arrange setCoins).Perm setCoins
  /-- `GetRandInt(n + 1)`. -/
  position : Nat → Nat
  position_le : ∀ n, position n ≤ n

/-- What the loop over the coins has collected. -/
structure Tally where
  vValue : List (CAmount × Coin) := []
  nTotalLower : CAmount := 0
  coinLowestLarger : CAmount × Option Coin := (Int64.maxValue, none)

inductive Scan where
  /-- A coin of exactly the target value. -/
  | exact (coin : Coin)
  | collected (tally : Tally)

/-- Whether a coin can be spent and has enough confirmations. -/
def COutput.usable (output : COutput) (nConfMine nConfTheirs : Int) : Bool :=
  output.fSpendable
    && !(output.nDepth < (if output.tx.isFromMe then nConfMine else nConfTheirs))

def scanCoins (nTargetValue : CAmount) (nConfMine nConfTheirs : Int)
    : List COutput → Tally → Scan
  | [], tally => .collected tally
  | output :: vCoins, tally =>
    let coin := output.coin
    let n := coin.value
    if !output.usable nConfMine nConfTheirs then
      scanCoins nTargetValue nConfMine nConfTheirs vCoins tally
    else if n = nTargetValue then .exact coin
    else if n < nTargetValue + cent then
      scanCoins nTargetValue nConfMine nConfTheirs vCoins { tally with
        vValue := tally.vValue ++ [(n, coin)]
        nTotalLower := tally.nTotalLower + n }
    else if n < tally.coinLowestLarger.1 then
      scanCoins nTargetValue nConfMine nConfTheirs vCoins
        { tally with coinLowestLarger := (n, some coin) }
    else scanCoins nTargetValue nConfMine nConfTheirs vCoins tally

/-- `setCoinsRet` and `nValueRet`. -/
structure Selection where
  setCoinsRet : List Coin := []
  nValueRet : CAmount := 0

/-- `setCoinsRet.insert(coin.second); nValueRet += coin.first;`. -/
def Selection.take (selection : Selection) (coin : CAmount × Coin) : Selection where
  setCoinsRet := selection.setCoinsRet.insert coin.2
  nValueRet := selection.nValueRet + coin.1

/-- Solve subset sum by stochastic approximation: exactly, or else with some change. -/
def bestSubset (chance : Chance) (call : Nat) (values : List CAmount)
    (nTotalLower nTargetValue : CAmount)
    : Subset :=
  let best := approximateBestSubset (chance.flip call 0) values nTotalLower nTargetValue 1000
  if best.nBest ≠ nTargetValue ∧ nTotalLower ≥ nTargetValue + cent then
    approximateBestSubset (chance.flip call 1) values nTotalLower (nTargetValue + cent) 1000
  else best

/-- `SelectCoinsMinConf`, in one of the calls of `SelectCoins`; none where it returns false. -/
def selectCoinsMinConf (chance : Chance) (call : Nat) (nTargetValue : CAmount)
    (nConfMine nConfTheirs : Int) (vCoins : List COutput)
    : Option Selection :=
  match scanCoins nTargetValue nConfMine nConfTheirs (chance.shuffle call vCoins) {} with
  | .exact coin => some (({} : Selection).take (coin.value, coin))
  | .collected tally =>
    let nTotalLower := tally.nTotalLower
    if nTotalLower = nTargetValue then some (tally.vValue.foldl Selection.take {})
    else if nTotalLower < nTargetValue then
      tally.coinLowestLarger.2.map fun coin =>
        ({} : Selection).take (tally.coinLowestLarger.1, coin)
    else
      let vValue := tally.vValue.mergeSort fun a b => a.1 ≥ b.1
      let best := bestSubset chance call (vValue.map Prod.fst) nTotalLower nTargetValue
      -- If we have a bigger coin and (either the stochastic approximation didn't find a good
      -- solution, or the next bigger coin is closer), return the bigger coin
      let larger := match tally.coinLowestLarger.2 with
        | some coin =>
          if (best.nBest ≠ nTargetValue ∧ best.nBest < nTargetValue + cent)
              ∨ tally.coinLowestLarger.1 ≤ best.nBest then some coin
          else none
        | none => none
      match larger with
      | some coin => some (({} : Selection).take (tally.coinLowestLarger.1, coin))
      | none => some ((picked vValue best.vfBest).foldl Selection.take {})

namespace CWallet

/-- The inputs that coin control presets; none if one is clearly invalid. -/
def presetCoins (wallet : CWallet) (coinControl : Option CCoinControl) : Option (List Coin) :=
  ((coinControl.map CCoinControl.setSelected).getD []).mapM fun outpoint =>
    match wallet.mapWallet.find? fun tx => tx.hash = outpoint.hash with
    | some pcoin =>
      if pcoin.vout.length ≤ outpoint.n.toNat then none else some (pcoin, outpoint.n.toNat)
    -- TODO: Allow non-wallet inputs
    | none => none

/-- The sum over the coins that can be spent. -/
def spendableValue (vCoins : List COutput) : CAmount :=
  vCoins.foldl (fun value out => if out.fSpendable then value + out.coin.value else value) 0

/-- What `SelectCoins` returns. -/
structure SelectCoins where
  selection : Option Selection
  fOnlyCoinbaseCoinsRet : Bool
  fNeedCoinbaseCoinsRet : Bool

/-- Coins with ever fewer confirmations. -/
def selectOthers (wallet : CWallet) (chance : Chance) (nTargetValue : CAmount)
    (vCoins : List COutput)
    : Option Selection :=
  (selectCoinsMinConf chance 0 nTargetValue 1 6 vCoins).or <|
    (selectCoinsMinConf chance 1 nTargetValue 1 1 vCoins).or <|
      if wallet.bSpendZeroConfChange then selectCoinsMinConf chance 2 nTargetValue 0 1 vCoins
      else none

/-- The coins of coin control and, if need be, others. -/
def selectWithPreset (wallet : CWallet) (chance : Chance) (nTargetValue : CAmount)
    (coinControl : Option CCoinControl) (vCoins : List COutput)
    : Option Selection := do
  let setPresetCoins ← wallet.presetCoins coinControl
  let nValueFromPresetInputs := setPresetCoins.foldl (fun value coin => value + coin.value) 0
  -- remove preset inputs from vCoins
  let vCoins := vCoins.filter fun out => out.coin ∉ setPresetCoins
  let selection ← (if nTargetValue ≤ nValueFromPresetInputs then some {}
    else wallet.selectOthers chance (nTargetValue - nValueFromPresetInputs) vCoins)
  return {
    setCoinsRet := setPresetCoins.foldl (fun setCoins coin => setCoins.insert coin)
      selection.setCoinsRet
    nValueRet := selection.nValueRet + nValueFromPresetInputs
  }

/-- `SelectCoins`. -/
def selectCoins (wallet : CWallet) (chance : Chance) (fProtectCoinbase : Bool)
    (nTargetValue : CAmount) (coinControl : Option CCoinControl)
    : SelectCoins :=
  let vCoinsNoCoinbase := wallet.availableCoins true coinControl false false
  let vCoinsWithCoinbase := wallet.availableCoins true coinControl false true
  -- If coinbase utxos can only be sent to zaddrs, exclude any coinbase utxos from coin selection.
  let vCoins := if fProtectCoinbase then vCoinsNoCoinbase else vCoinsWithCoinbase
  {
    selection :=
      -- coin control -> return all selected outputs
      if coinControl.any fun control => control.hasSelected && !control.fAllowOtherInputs then
        let selection := vCoins.foldl (fun selection out =>
          if out.fSpendable then selection.take (out.coin.value, out.coin) else selection) {}
        if selection.nValueRet ≥ nTargetValue then some selection else none
      else wallet.selectWithPreset chance nTargetValue coinControl vCoins
    fOnlyCoinbaseCoinsRet := vCoinsNoCoinbase.length = 0 && vCoinsWithCoinbase.length > 0
    fNeedCoinbaseCoinsRet := fProtectCoinbase
      && vCoinsWithCoinbase.length > vCoinsNoCoinbase.length
      && spendableValue vCoinsNoCoinbase ≤ nTargetValue
      && spendableValue vCoinsWithCoinbase ≥ nTargetValue
  }

end CWallet

end Resistance.Wallet

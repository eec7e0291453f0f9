import Resistance.Consensus.Amount

/-! The consensus constants and parameters that the modelled rules read, from
`consensus/consensus.h`, `consensus/params.h`, `consensus/upgrades.cpp` and
`chainparams.cpp`.
-/

namespace Resistance.Consensus

open Primitives

-- From `consensus/consensus.h`.
def sproutMinTxVersion : Int32 := 1
def overwinterMinTxVersion : Int32 := 3
def overwinterMaxTxVersion : Int32 := 3
def saplingMinTxVersion : Int32 := 4
def saplingMaxTxVersion : Int32 := 4
def maxBlockSize : Nat := 2000000
def maxBlockSigops : UInt32 := 20000
def maxTxSizeBeforeSapling : Nat := 100000
def maxTxSizeAfterSapling : Nat := maxBlockSize
def txExpiryHeightThreshold : UInt32 := 500000000

inductive UpgradeIndex where
  | sprout
  | testdummy
  | overwinter
  | sapling
  | blossom
  deriving DecidableEq, Repr

-- Special values of `nActivationHeight`.
def alwaysActive : Int := 0
def noActivationHeight : Int := -1

/-- The largest `int`. -/
def intMax : Int := 2147483647

/-- `Consensus::Params`. The laws of the subsidy schedule hold for every network in
`chainparams.cpp`; without them the schedule divides by zero or leaves the range of `int`.
-/
structure Params where
  hashGenesisBlock : Uint256
  fCoinbaseMustBeProtected : Bool
  nSubsidySlowStartHeight : Int
  nSubsidySlowStartInterval : Int
  nSubsidyHalvingInterval : Int
  nPorRewardPercentage : Int
  nPorRewardTxPercentage : Int
  nMasternodeRewardPercentage : Int
  nMasternodeRewardTxPercentage : Int
  nPlatformDevFundPercentage : Int
  nPlatformDevFundTxPercentage : Int
  nCoinbaseMaturity : Int
  nActivationHeight : UpgradeIndex → Int
  slowStartHeight_nonneg : 0 ≤ nSubsidySlowStartHeight
  slowStartInterval_pos : 0 < nSubsidySlowStartInterval
  slowStartEnd_le : nSubsidySlowStartHeight + nSubsidySlowStartInterval ≤ intMax
  halvingInterval_pos : 0 < nSubsidyHalvingInterval
  halvingInterval_le : 2 * nSubsidyHalvingInterval ≤ intMax

namespace Params

def getLastPorRewardBlockHeight (_ : Params) : Int := 0x7fffffff

def getLastMasternodeRewardBlockHeight (params : Params) : Int :=
  if params.nCoinbaseMaturity ≠ 2 then 805000 else 1500

def getLastPlatformDevFundBlockHeight (_ : Params) : Int := 0x7fffffff

inductive UpgradeState where
  | disabled
  | pending
  | active
  deriving DecidableEq, Repr

def networkUpgradeState (params : Params) (nHeight : Int) (idx : UpgradeIndex)
    : UpgradeState :=
  let nActivationHeight := params.nActivationHeight idx
  if nActivationHeight = noActivationHeight then .disabled
  else if nHeight ≥ nActivationHeight then .active
  else .pending

def networkUpgradeActive (params : Params) (nHeight : Int) (idx : UpgradeIndex) : Bool :=
  params.networkUpgradeState nHeight idx == .active

/-- `CMainParams`. -/
def main : Params where
  hashGenesisBlock := ⟨[
    0x4f, 0x75, 0x48, 0x2b, 0xcf, 0x03, 0xa9, 0xab, 0x41, 0x8b, 0x3c, 0x14, 0x15,
    0x17, 0x5d, 0xa2, 0x23, 0x7e, 0x9b, 0x90, 0x02, 0xbd, 0x5d, 0x1a, 0x7c, 0x3b,
    0xcf, 0x52, 0xde, 0xb5, 0x8a, 0x32], rfl⟩
  fCoinbaseMustBeProtected := false
  nSubsidySlowStartHeight := 201
  nSubsidySlowStartInterval := 43200
  nSubsidyHalvingInterval := 2200000 - 14400
  nPorRewardPercentage := 30
  nPorRewardTxPercentage := 30
  nMasternodeRewardPercentage := 30
  nMasternodeRewardTxPercentage := 30
  nPlatformDevFundPercentage := 10
  nPlatformDevFundTxPercentage := 10
  nCoinbaseMaturity := 100
  nActivationHeight
    | .sprout => alwaysActive
    | .testdummy => noActivationHeight
    | .overwinter => alwaysActive
    | .sapling => 1
    | .blossom => noActivationHeight
  slowStartHeight_nonneg := by decide
  slowStartInterval_pos := by decide
  slowStartEnd_le := by decide
  halvingInterval_pos := by decide
  halvingInterval_le := by decide

end Params

end Resistance.Consensus

import Resistance.Consensus.Params
import Resistance.Consensus.Validation
import Resistance.Script.Script

/-! The reward addresses of `CChainParams`, from `chainparams.cpp`. Each kind of reward has a
list of pay-to-script-hash addresses that take turns over the heights at which it is paid.
-/

namespace Resistance.Consensus

open Primitives Script Lib.Checks

-- `CTxDestination`.
inductive CTxDestination where
  | noDestination
  | keyID (id : Uint160)
  | scriptID (id : Uint160)
  deriving DecidableEq

/-- The addresses of one kind of reward. That they are script addresses is what
`Get…ScriptAtHeight` asserts.
-/
structure RewardAddresses (decodeDestination : String → CTxDestination) where
  vAddress : List String
  nonempty : 0 < vAddress.length
  scripts : ∀ address ∈ vAddress, ∃ id, decodeDestination address = .scriptID id

def RewardAddresses.single {decodeDestination : String → CTxDestination} (address : String)
    (script : ∃ id, decodeDestination address = .scriptID id)
    : RewardAddresses decodeDestination where
  vAddress := [address]
  nonempty := Nat.one_pos
  scripts := by simpa using script

/-- `CChainParams`, with the base58 decoder that it calls. -/
structure CChainParams where
  consensus : Params
  decodeDestination : String → CTxDestination
  vPorRewardAddress : RewardAddresses decodeDestination
  vMasternodeRewardAddress : RewardAddresses decodeDestination
  vPlatformDevFundAddress : RewardAddresses decodeDestination
  fZIP209Enabled : Bool := false

section Reward

variable {decodeDestination : String → CTxDestination}

def getRewardAddressAtHeight (lastHeight : Int)
    (addresses : RewardAddresses decodeDestination) (nHeight : Int)
    : Except Failure String := do
  let vAddress := addresses.vAddress
  let maxHeight := lastHeight.toNat
  throwIf (¬ (nHeight > 0 ∧ nHeight ≤ maxHeight))
    (.assertion "nHeight > 0 && nHeight <= maxHeight")
  let addressChangeInterval := (maxHeight + vAddress.length) / vAddress.length
  let i := nHeight.toNat / addressChangeInterval
  match vAddress[i]? with
  | some address => pure address
  | none => .error .undefined

def getRewardScriptAtHeight (decodeDestination : String → CTxDestination)
    (assertion : String) (lastHeight : Int) (addressAtHeight : Int → Except Failure String)
    (nHeight : Int) : Except Failure CScript := do
  throwIf (¬ (nHeight > 0 ∧ nHeight ≤ lastHeight)) (.assertion assertion)
  let address ← addressAtHeight nHeight
  match decodeDestination address with
  | .noDestination => .error (.assertion "IsValidDestination(address)")
  | .keyID _ => .error (.assertion "boost::get<CScriptID>(&address) != nullptr")
  | .scriptID scriptID => pure (payToScriptHash scriptID)

section

variable {lastHeight nHeight : Int} (addresses : RewardAddresses decodeDestination)
  (pos : 0 < nHeight) (bound : nHeight ≤ lastHeight)
include pos bound

/-- Every height up to the last one has an address of the list. -/
theorem getRewardAddressAtHeight_ok
    : ∃ address ∈ addresses.vAddress,
        getRewardAddressAtHeight lastHeight addresses nHeight = .ok address := by
  obtain ⟨vAddress, nonempty, _⟩ := addresses
  have within : nHeight ≤ lastHeight.toNat := by omega
  have inside : nHeight.toNat
      / ((lastHeight.toNat + vAddress.length) / vAddress.length) < vAddress.length := by
    have below := Nat.lt_mul_div_succ lastHeight.toNat nonempty
    rw [Nat.add_div_right _ nonempty, Nat.div_lt_iff_lt_mul (Nat.succ_pos _)]
    exact lt_of_le_of_lt (by omega) below
  refine ⟨vAddress.get ⟨_, inside⟩, List.get_mem _ _, ?_⟩
  refine bind_ok.mpr ⟨(), throwIf_ok.mpr (not_not.mpr ⟨pos, within⟩), ?_⟩
  simp only [List.getElem?_eq_getElem inside]
  rfl

/-- Up to the last height, the script of a reward is a pay-to-script-hash output. -/
theorem getRewardScriptAtHeight_ok (assertion : String)
    : ∃ scriptID,
        getRewardScriptAtHeight decodeDestination assertion lastHeight
          (getRewardAddressAtHeight lastHeight addresses) nHeight
        = .ok (payToScriptHash scriptID) := by
  obtain ⟨address, listed, found⟩ := getRewardAddressAtHeight_ok addresses pos bound
  obtain ⟨scriptID, decoded⟩ := addresses.scripts address listed
  refine ⟨scriptID, ?_⟩
  refine bind_ok.mpr ⟨(), throwIf_ok.mpr (not_not.mpr ⟨pos, bound⟩), ?_⟩
  refine bind_ok.mpr ⟨address, found, ?_⟩
  simp only [decoded]
  rfl

end

end Reward

namespace CChainParams

variable (chainparams : CChainParams)

def getPorRewardAddressAtHeight : Int → Except Failure String :=
  getRewardAddressAtHeight chainparams.consensus.getLastPorRewardBlockHeight
    chainparams.vPorRewardAddress

def getPorRewardScriptAtHeight : Int → Except Failure CScript :=
  getRewardScriptAtHeight chainparams.decodeDestination
    "nHeight > 0 && nHeight <= consensus.GetLastPorRewardBlockHeight()"
    chainparams.consensus.getLastPorRewardBlockHeight
    chainparams.getPorRewardAddressAtHeight

def getMasternodeRewardAddressAtHeight : Int → Except Failure String :=
  getRewardAddressAtHeight chainparams.consensus.getLastMasternodeRewardBlockHeight
    chainparams.vMasternodeRewardAddress

def getMasternodeRewardScriptAtHeight : Int → Except Failure CScript :=
  getRewardScriptAtHeight chainparams.decodeDestination
    "nHeight > 0 && nHeight <= consensus.GetLastMasternodeRewardBlockHeight()"
    chainparams.consensus.getLastMasternodeRewardBlockHeight
    chainparams.getMasternodeRewardAddressAtHeight

def getPlatformDevFundAddressAtHeight : Int → Except Failure String :=
  getRewardAddressAtHeight chainparams.consensus.getLastPlatformDevFundBlockHeight
    chainparams.vPlatformDevFundAddress

def getPlatformDevFundScriptAtHeight : Int → Except Failure CScript :=
  getRewardScriptAtHeight chainparams.decodeDestination
    "nHeight > 0 && nHeight <= consensus.GetLastPlatformDevFundBlockHeight()"
    chainparams.consensus.getLastPlatformDevFundBlockHeight
    chainparams.getPlatformDevFundAddressAtHeight

/-- `CMainParams`, for a decoder that reads its addresses as script addresses. -/
def main (decodeDestination : String → CTxDestination)
    (por : ∃ id, decodeDestination "r3BRC7xQ1JemFuRgCYPhpsQQhUmgbz772Dh" = .scriptID id)
    (masternode : ∃ id, decodeDestination "r394kKYEHd67UnsS7v1zuhRLPjANqD5T2G2"
      = .scriptID id)
    (platformDev : ∃ id, decodeDestination "r39mwRFQzHz55ZrEL3dGuDVCXHtmCRJ2jzo"
      = .scriptID id)
    : CChainParams where
  consensus := Params.main
  decodeDestination
  vPorRewardAddress := .single _ por
  vMasternodeRewardAddress := .single _ masternode
  vPlatformDevFundAddress := .single _ platformDev

end CChainParams

/-- The three shares of a block's reward that do not go to the miner. -/
inductive Reward where
  | por
  | masternode
  | platformDev
  deriving DecidableEq, Repr

namespace Reward

-- In the order in which the miner and the two checks treat them.
def all : List Reward := [.por, .masternode, .platformDev]

def percentage (params : Params) : Reward → Int
  | .por => params.nPorRewardPercentage
  | .masternode => params.nMasternodeRewardPercentage
  | .platformDev => params.nPlatformDevFundPercentage

def txPercentage (params : Params) : Reward → Int
  | .por => params.nPorRewardTxPercentage
  | .masternode => params.nMasternodeRewardTxPercentage
  | .platformDev => params.nPlatformDevFundTxPercentage

def lastHeight (params : Params) : Reward → Int
  | .por => params.getLastPorRewardBlockHeight
  | .masternode => params.getLastMasternodeRewardBlockHeight
  | .platformDev => params.getLastPlatformDevFundBlockHeight

def scriptAtHeight (chainparams : CChainParams) (nHeight : Int)
    : Reward → Except Failure CScript
  | .por => chainparams.getPorRewardScriptAtHeight nHeight
  | .masternode => chainparams.getMasternodeRewardScriptAtHeight nHeight
  | .platformDev => chainparams.getPlatformDevFundScriptAtHeight nHeight

/-- The heights at which a block must pay the reward. -/
def Due (params : Params) (nHeight : Int) (reward : Reward) : Prop :=
  nHeight ≥ params.nSubsidySlowStartHeight ∧ nHeight ≤ reward.lastHeight params

instance (params : Params) (nHeight : Int) (reward : Reward)
    : Decidable (reward.Due params nHeight) :=
  inferInstanceAs (Decidable (_ ∧ _))

end Reward

end Resistance.Consensus

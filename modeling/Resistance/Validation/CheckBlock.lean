import Mathlib.Data.UInt
import Resistance.Chain.BlockIndex
import Resistance.Consensus.Subsidy
import Resistance.Validation.CheckTransaction

/-! What validation asks of a coinbase: the rewards of `ContextualCheckBlock`, and the amount
and the rewards of `ConnectBlock`, from `main.cpp`.
-/

namespace Resistance.Validation

open Primitives Consensus Lib.Checks Chain Script

/-- The loop over the outputs of a coinbase: whether one of them pays an accepted amount to
the script, which is computed again for every output.
-/
def pays (script : Except Failure CScript) (accepts : CAmount → Bool)
    : List CTxOut → Except Failure Bool
  | [] => pure false
  | output :: vout => do
    let expected ← script
    if output.scriptPubKey == expected && accepts output.nValue then pure true
    else pays script accepts vout

theorem pays_of_mem {script accepts vout output} (mem : output ∈ vout)
    (paid : output.scriptPubKey = script) (accepted : accepts output.nValue = true)
    : pays (.ok script) accepts vout = .ok true := by
  induction vout with
  | nil => cases mem
  | cons head vout ih =>
    refine bind_ok.mpr ⟨script, rfl, ?_⟩
    rcases List.mem_cons.mp mem with rfl | later
    · simp [paid, accepted]
    · split
      · rfl
      · exact ih later

def contextualReason : Reward → String
  | .por => "cb-no-por-reward"
  | .masternode => "cb-no-mn-reward"
  | .platformDev => "cb-no-dev-fund"

def contextualCheckReward (chainparams : CChainParams) (nHeight : Int)
    (coinbase : CTransaction) (reward : Reward) : Except Failure Unit :=
  let consensusParams := chainparams.consensus
  if reward.Due consensusParams nHeight then do
    let subsidy := getBlockSubsidy nHeight consensusParams
    let found ← pays (reward.scriptAtHeight chainparams nHeight)
      (fun nValue =>
        decide (nValue ≥ subsidy * Int64.ofInt (reward.percentage consensusParams) / 100))
      coinbase.vout
    throwIf (¬ found) (dos 100 rejectInvalid (contextualReason reward))
  else pure ()

/-- The reward checks of `ContextualCheckBlock`. -/
def contextualCheckRewards (chainparams : CChainParams) (nHeight : Int)
    (coinbase : CTransaction) : Except Failure Unit :=
  Reward.all.forM (contextualCheckReward chainparams nHeight coinbase)

def connectReason : Reward → String
  | .por => "cb-no-por-fee-reward"
  | .masternode => "cb-no-mn-fee-reward"
  | .platformDev => "cb-no-dev-fee-fund"

def connectCheckReward (chainparams : CChainParams) (nHeight : Int) (nFees : CAmount)
    (coinbase : CTransaction) (reward : Reward) : Except Failure Unit :=
  let consensusParams := chainparams.consensus
  let subsidy := getBlockSubsidy nHeight consensusParams
  if reward.Due consensusParams nHeight then do
    let blockReward := subsidy * Int64.ofInt (reward.percentage consensusParams) / 100
    let feeReward := nFees * Int64.ofInt (reward.txPercentage consensusParams) / 100
    let found ← pays (reward.scriptAtHeight chainparams nHeight)
      (fun nValue => decide (nValue = blockReward + feeReward)) coinbase.vout
    throwIf (¬ found) (dos 100 rejectInvalid (connectReason reward))
  else pure ()

/-- The coinbase must not pay more than the fees and the subsidy. -/
def connectCheckAmount (chainparams : CChainParams) (nHeight : Int) (nFees : CAmount)
    (coinbase : CTransaction) : Except Failure Unit := do
  let subsidy := getBlockSubsidy nHeight chainparams.consensus
  let blockReward := nFees + subsidy
  let nValueOut ← coinbase.getValueOut.mapError .exception
  throwIf (nValueOut > blockReward) (dos 100 rejectInvalid "bad-cb-amount")

/-- The coinbase-amount and reward checks of `ConnectBlock`. -/
def connectCheckRewards (chainparams : CChainParams) (nHeight : Int) (nFees : CAmount)
    (coinbase : CTransaction) : Except Failure Unit := do
  connectCheckAmount chainparams nHeight nFees coinbase
  Reward.all.forM (connectCheckReward chainparams nHeight nFees coinbase)

/-! The checks of a block that need no coins, from `main.cpp`: `CheckBlock` and
`ContextualCheckBlock`.
-/

def minBlockVersion : Int32 := 4

def checkBlockHeader (env : Environment) (header : CBlockHeader) (fCheckPOW : Bool)
    : Except Failure Unit := do
  throwIf (header.nVersion < minBlockVersion) (dos 100 rejectInvalid "version-too-low")
  throwIf (fCheckPOW ∧ ¬ env.checkProofOfWork header) (dos 50 rejectInvalid "high-hash")
  throwIf (header.getBlockTime > env.getAdjustedTime + 2 * 60 * 60)
    (dos 0 rejectInvalid "time-too-new")

def checkMerkleRoot (hashes : Hashes) (block : CBlock) : Except Failure Unit := do
  let (hashMerkleRoot2, mutated) := block.buildMerkleTree hashes.hash
  throwIf (block.hashMerkleRoot ≠ hashMerkleRoot2)
    (dos 100 rejectInvalid "bad-txnmrklroot" true)
  throwIf mutated (dos 100 rejectInvalid "bad-txns-duplicate" true)

def checkBlockSize (block : CBlock) : Except Failure Unit := do
  throwIf (block.vtx = [] ∨ block.vtx.length > maxBlockSize)
    (dos 100 rejectInvalid "bad-blk-length")
  let size ← block.getSerializeSize.mapError .exception
  throwIf (size > maxBlockSize) (dos 100 rejectInvalid "bad-blk-length")

/-- First transaction must be coinbase, the rest must not be. -/
def checkCoinBasePosition (block : CBlock) : Except Failure Unit := do
  throwIf (¬ block.vtx.head?.any CTransaction.isCoinBase)
    (dos 100 rejectInvalid "bad-cb-missing")
  forM block.vtx.tail fun tx =>
    throwIf tx.isCoinBase (dos 100 rejectInvalid "bad-cb-multiple")

/-- `CheckBlock`, with the strict or with the disabled proof verifier. -/
def checkBlock (env : Environment) (hashes : Hashes) (block : CBlock)
    (strict fCheckPOW fCheckMerkleRoot : Bool) : Except Failure Unit := do
  checkBlockHeader env block.toCBlockHeader fCheckPOW
  (if fCheckMerkleRoot then checkMerkleRoot hashes block else pure ())
  checkBlockSize block
  checkCoinBasePosition block
  forM block.vtx (checkTransaction env strict)
  throwIf ((block.vtx.map env.getLegacySigOpCount).sum > maxBlockSigops)
    (dos 100 rejectInvalid "bad-blk-sigops" true)

section Contextual

variable (env : Environment) (chainparams : CChainParams) (block : CBlock)

/-- BIP 34: the coinbase starts with the serialized block height. -/
def checkCoinBaseHeight (nHeight : Int) : Except Failure Unit :=
  if nHeight > 0 then
    match block.vtx.head?.bind (·.vin.head?) with
    | none => .error .undefined
    | some txin =>
      throwIf (¬ pushInt64 [] (Int64.ofInt nHeight) <+: txin.scriptSig)
        (dos 100 rejectInvalid "bad-cb-height")
  else pure ()

def contextualCheckBlock (pindexPrev : Option CBlockIndex) : Except Failure Unit := do
  let nHeight := pindexPrev.elim 0 (·.nHeight + 1)
  forM block.vtx fun tx => do
    contextualCheckTransaction env chainparams tx nHeight 100
    throwIf (!isFinalTx tx nHeight block.getBlockTime)
      (dos 10 rejectInvalid "bad-txns-nonfinal")
  checkCoinBaseHeight block nHeight
  match block.vtx with
  | [] => throwIf (∃ reward ∈ Reward.all, reward.Due chainparams.consensus nHeight) .undefined
  | coinbase :: _ => contextualCheckRewards chainparams nHeight coinbase

end Contextual

/-- What `CheckBlock` ensures, as far as coins and pools depend on it. -/
structure CheckedBlock (block : CBlock) (coinbase : CTransaction) (vtx : List CTransaction)
    : Prop where
  split : block.vtx = coinbase :: vtx
  coinbase : coinbase.isCoinBase = true
  ordinary : ∀ tx ∈ vtx, tx.isCoinBase = false
  checked : ∀ tx ∈ block.vtx, Checked tx

theorem checkedBlock_of_checkBlock {env hashes block strict fCheckPOW fCheckMerkleRoot u}
    (run : checkBlock env hashes block strict fCheckPOW fCheckMerkleRoot = .ok u)
    : ∃ coinbase vtx, CheckedBlock block coinbase vtx := by
  simp only [checkBlock, bind_ok] at run
  obtain ⟨_, _, _, _, _, _, _, position, _, transactions, _⟩ := run
  simp only [checkCoinBasePosition, bind_ok, throwIf_ok, not_not] at position
  obtain ⟨_, first, rest⟩ := position
  cases split : block.vtx with
  | nil =>
    rw [split] at first
    cases first
  | cons coinbase vtx =>
    rw [split] at first rest
    refine ⟨coinbase, vtx, split, first, fun tx mem => ?_, fun tx mem => ?_⟩
    · simpa using throwIf_ok.mp (forM_ok.mp rest tx mem)
    · exact checked_of_checkTransaction (forM_ok.mp transactions tx mem)

end Resistance.Validation

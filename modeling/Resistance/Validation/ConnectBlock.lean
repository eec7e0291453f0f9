import Resistance.Validation.CheckBlock
import Resistance.Validation.UpdateCoins

/-! `ConnectBlock` of `main.cpp`, with the input checks that it calls. The address, spent, time
and transaction indexes are left out, and writing to disk does not fail.
-/

namespace Resistance.Validation

open Primitives Consensus Coins Chain Zcash Lib.Checks

section Inputs

variable (env : Environment) (hashes : Hashes) (params : Params) (inputs : ViewState)
  (tx : CTransaction)

/-- One iteration of the loop of `CheckTxInputs`. -/
def checkTxInput (nSpendHeight : Int) (nValueIn : CAmount) (txin : CTxIn)
    : Except Failure CAmount :=
  match inputs.coins.lookup txin.prevout.hash with
  | none => .error (.assertion "coins")
  | some coins => do
    throwIf (coins.fCoinBase ∧ nSpendHeight - coins.nHeight < params.nCoinbaseMaturity)
      (dos 0 rejectInvalid "bad-txns-premature-spend-of-coinbase")
    throwIf (coins.fCoinBase ∧ env.fCoinbaseEnforcedProtectionEnabled
        ∧ params.fCoinbaseMustBeProtected ∧ tx.vout ≠ [])
      (dos 0 rejectInvalid "bad-txns-coinbase-spend-has-transparent-outputs")
    match coins.vout[txin.prevout.n.toNat]? with
    | none => .error .undefined
    | some txout => do
      let nValueIn := nValueIn + txout.nValue
      throwIf (!moneyRange txout.nValue || !moneyRange nValueIn)
        (dos 100 rejectInvalid "bad-txns-inputvalues-outofrange")
      return nValueIn

/-- `Consensus::CheckTxInputs`. -/
def checkTxInputs (nSpendHeight : Int) : Except Failure Unit := do
  throwIf (!inputs.haveInputs tx) (dos 0)
  let met ← inputs.haveShieldedRequirements tx hashes.sprout sproutTreeDepth
  throwIf (!met) (dos 0)
  let nValueIn ← tx.vin.foldlM (checkTxInput env params inputs tx nSpendHeight) 0
  let nValueIn := nValueIn + (← tx.getShieldedValueIn.mapError .exception)
  throwIf (!moneyRange nValueIn) (dos 100 rejectInvalid "bad-txns-inputvalues-outofrange")
  let nValueOut ← tx.getValueOut.mapError .exception
  throwIf (nValueIn < nValueOut) (dos 100 rejectInvalid "bad-txns-in-belowout")
  let nTxFee := nValueIn - nValueOut
  throwIf (nTxFee < 0) (dos 100 rejectInvalid "bad-txns-fee-negative")
  throwIf (!moneyRange (0 + nTxFee)) (dos 100 rejectInvalid "bad-txns-fee-outofrange")

/-- The failure of one script that is checked at once. -/
def scriptFailure (nIn : Nat) (txout : CTxOut) : Option Failure :=
  (env.scriptCheck false tx nIn txout).map fun error =>
    -- a second check tells whether only non-mandatory flags failed
    if (env.scriptCheck true tx nIn txout).isNone then
      dos 0 rejectNonstandard ("non-mandatory-script-verify-flag (" ++ error ++ ")")
    else dos 100 rejectInvalid ("mandatory-script-verify-flag-failed (" ++ error ++ ")")

/-- The script checks of `ContextualCheckInputs`: with threads they are queued, and the
result is whether the queue will find them all valid.
-/
def checkScripts : Nat → List CTxIn → Except Failure Bool
  | _, [] => pure true
  | nIn, txin :: vin => do
    let txout ← inputs.getOutputFor txin
    if env.nScriptCheckThreads then
      return (env.scriptCheck false tx nIn txout).isNone && (← checkScripts (nIn + 1) vin)
    else
      match scriptFailure env tx nIn txout with
      | some failure => .error failure
      | none => checkScripts (nIn + 1) vin

def contextualCheckInputs (nSpendHeight : Int) : Except Failure Bool :=
  if tx.isCoinBase then pure true
  else do
    checkTxInputs env hashes params inputs tx nSpendHeight
    if env.fExpensiveChecks then checkScripts env inputs tx 0 tx.vin else pure true

end Inputs

/-- An input that passes adds the value of the output that it names. -/
theorem checkTxInput_ok {env params inputs tx nSpendHeight nValueIn txin next}
    (range : Money nValueIn.toInt)
    (run : checkTxInput env params inputs tx nSpendHeight nValueIn txin = .ok next)
    : ∃ coins txout, inputs.coins.lookup txin.prevout.hash = some coins
      ∧ coins.vout[txin.prevout.n.toNat]? = some txout ∧ next = nValueIn + txout.nValue
      ∧ Money next.toInt ∧ next.toInt = nValueIn.toInt + txout.nValue.toInt := by
  unfold checkTxInput at run
  split at run
  next => cases run
  next coins found =>
    simp only [bind_ok] at run
    obtain ⟨_, _, _, _, added⟩ := run
    split at added
    next => cases added
    next txout output =>
      simp only [bind_ok, throwIf_ok, pure_ok, Bool.or_eq_true, Bool.not_eq_true', not_or,
        Bool.not_eq_false, moneyRange_iff] at added
      obtain ⟨_, ⟨item, sum⟩, rfl⟩ := added
      exact ⟨coins, txout, found, output, rfl, sum, range.add item⟩

/-- The local variables of `ConnectBlock` that its loop changes. -/
structure ConnectState where
  view : ViewState
  vtxundo : List CTxUndo := []
  nFees : CAmount := 0
  nSigOps : UInt32 := 0
  sproutTree : MerkleTree
  saplingTree : MerkleTree
  /-- Whether all script checks that were queued so far are valid. -/
  control : Bool := true

section Connect

variable (env : Environment) (hashes : Hashes) (chainparams : CChainParams) (pindex : CBlockIndex)

def addSigOps (nSigOps more : UInt32) : Except Failure UInt32 := do
  throwIf (nSigOps + more > maxBlockSigops) (dos 100 rejectInvalid "bad-blk-sigops")
  return nSigOps + more

/-- `GetSpendHeight`: the view's best block is the predecessor of the block. -/
def getSpendHeight : Except Failure Int :=
  match pindex.pprev with
  | none => .error .undefined
  | some pprev => pure (pprev.nHeight + 1)

/-- What the loop does for a transaction that is not a coinbase, before its coins are
updated.
-/
def connectInputs (s : ConnectState) (tx : CTransaction) : Except Failure ConnectState := do
  throwIf (!s.view.haveInputs tx) (dos 100 rejectInvalid "bad-txns-inputs-missingorspent")
  let met ← s.view.haveShieldedRequirements tx hashes.sprout sproutTreeDepth
  throwIf (!met) (dos 100 rejectInvalid "bad-txns-joinsplit-requirements-not-met")
  let prevouts ← tx.vin.mapM s.view.getOutputFor
  let nSigOps ← addSigOps s.nSigOps (env.getP2SHSigOpCount tx prevouts)
  let nValueIn ← s.view.getValueIn tx
  let nValueOut ← tx.getValueOut.mapError .exception
  let nSpendHeight ← getSpendHeight pindex
  let valid ← contextualCheckInputs env hashes chainparams.consensus s.view tx nSpendHeight
  return { s with
    nSigOps
    nFees := s.nFees + (nValueIn - nValueOut)
    control := s.control && valid }

/-- One iteration of the loop over the transactions. -/
def connectTx (i : Nat) (s : ConnectState) (tx : CTransaction)
    : Except Failure ConnectState := do
  let nSigOps ← addSigOps s.nSigOps (env.getLegacySigOpCount tx)
  let s := { s with nSigOps }
  let s ← (if tx.isCoinBase then pure s else connectInputs env hashes chainparams pindex s tx)
  let (view, txundo) ← updateCoins tx s.view pindex.nHeight
  let sproutTree ← ((tx.vJoinSplit.flatMap fun joinsplit => joinsplit.commitments.toList).foldlM
    (IncrementalMerkleTree.append hashes.sprout sproutTreeDepth) s.sproutTree).mapError .exception
  let saplingTree ← ((tx.vShieldedOutput.map OutputDescription.cm).foldlM
    (IncrementalMerkleTree.append hashes.sapling saplingTreeDepth) s.saplingTree).mapError
      .exception
  return { s with
    view
    vtxundo := if i > 0 then s.vtxundo ++ [txundo] else s.vtxundo
    sproutTree
    saplingTree }

def connectTxs : Nat → ConnectState → List CTransaction → Except Failure ConnectState
  | _, s, [] => pure s
  | i, s, tx :: vtx => do
    let s ← connectTx env hashes chainparams pindex i s tx
    connectTxs (i + 1) s vtx

/-- A block must not leave a shielded pool with a negative balance. -/
def checkTurnstile : Except Failure Unit := do
  throwIf (chainparams.fZIP209Enabled ∧ pindex.nChainSproutValue.any (· < 0))
    (dos 100 rejectInvalid "turnstile-violation-sprout-shielded-pool")
  throwIf (chainparams.fZIP209Enabled ∧ pindex.nChainSaplingValue.any (· < 0))
    (dos 100 rejectInvalid "turnstile-violation-sapling-shielded-pool")

/-- Do not allow blocks that contain transactions which 'overwrite' older transactions,
unless those are already completely spent.
-/
def checkBIP30 (view : ViewState) (block : CBlock) : Except Failure Unit :=
  forM block.vtx fun tx =>
    throwIf ((view.coins.lookup tx.getHash).any (! ·.isPruned))
      (dos 100 rejectInvalid "bad-txns-BIP30")

/-- The local variables of `ConnectBlock` before its loop. -/
def connectStart (view : ViewState) : Except Failure ConnectState :=
  match view.sprout.getAnchorAt view.sprout.hashAnchor,
    view.sapling.getAnchorAt view.sapling.hashAnchor with
  | none, _ => .error
      (.assertion "view.GetSproutAnchorAt(old_sprout_tree_root, sprout_tree)")
  | some sproutTree, saplingTree => do
    throwIf (sproutTree.root hashes.sprout sproutTreeDepth ≠ view.sprout.hashAnchor)
      (.assertion "sprout_tree.root() == old_sprout_tree_root")
    match saplingTree with
    | none => .error (.assertion
        "view.GetSaplingAnchorAt(view.GetBestAnchor(SAPLING), sapling_tree)")
    | some saplingTree => return { view, sproutTree, saplingTree }

/-- Push the anchors of the trees after the loop, and check the one in the header. -/
def connectAnchors (block : CBlock) (s : ConnectState) : Except Failure ViewState := do
  throwIf (chainparams.consensus.networkUpgradeActive pindex.nHeight .sapling
      ∧ block.hashFinalSaplingRoot ≠ s.saplingTree.root hashes.sapling saplingTreeDepth)
    (dos 100 rejectInvalid "bad-sapling-root-in-block")
  return { s.view with
    sprout := s.view.sprout.pushAnchor hashes.sprout sproutTreeDepth s.sproutTree
    sapling := s.view.sapling.pushAnchor hashes.sapling saplingTreeDepth s.saplingTree }

/-- `ConnectBlock` for a block that is not the genesis block, after `CheckBlock`. -/
def connectTransactions (view : ViewState) (block : CBlock)
    : Except Failure (ViewState × CBlockUndo) := do
  checkTurnstile chainparams pindex
  checkBIP30 view block
  let s ← connectStart hashes view
  let s ← connectTxs env hashes chainparams pindex 0 s block.vtx
  let connected ← connectAnchors hashes chainparams pindex block s
  match block.vtx with
  | [] => .error .undefined
  | coinbase :: _ => do
    connectCheckRewards chainparams pindex.nHeight s.nFees coinbase
    throwIf (!s.control) (dos 100)
    return (connected, { vtxundo := s.vtxundo, oldSproutTreeRoot := view.sprout.hashAnchor })

/-- `ConnectBlock`: the view after the block, and the undo data that is written to disk. -/
def connectBlock (block : CBlock) (view : ViewState) (fJustCheck : Bool)
    : Except Failure (ViewState × CBlockUndo) := do
  checkBlock env hashes block env.fExpensiveChecks (!fJustCheck) (!fJustCheck)
  throwIf (pindex.pprev.elim .null CBlockIndex.hash ≠ view.hashBlock)
    (.assertion "hashPrevBlock == view.GetBestBlock()")
  let (view, blockundo) ←
    (if block.getHash hashes.hash = chainparams.consensus.hashGenesisBlock then
      -- Special case for the genesis block, skipping connection of its transactions
      pure (view, {})
    else connectTransactions env hashes chainparams pindex view block)
  return (if fJustCheck then view else { view with hashBlock := pindex.hash }, blockundo)

end Connect

/-- The view of an empty database. -/
def emptyView (hashes : Hashes) : ViewState where
  coins := ∅
  sprout := .empty hashes.sprout sproutTreeDepth
  sapling := .empty hashes.sapling saplingTreeDepth
  hashBlock := .null

section Sample

/-- Every check of scripts, signatures, proofs and work passes. -/
def sampleEnvironment : Environment where
  checkProofOfWork _ := true
  getAdjustedTime := 0
  isInitialBlockDownload := false
  joinSplitVerify _ _ _ := true
  signatureHash _ _ := some .null
  joinSplitSigVerify _ _ := true
  saplingCheckSpend _ _ _ := true
  saplingCheckOutput _ _ := true
  saplingFinalCheck _ _ := true
  getLegacySigOpCount _ := 0
  getP2SHSigOpCount _ _ := 0
  scriptCheck _ _ _ _ := none
  fExpensiveChecks := true
  nScriptCheckThreads := false
  fCoinbaseEnforcedProtectionEnabled := true

def sampleCoinBase (scriptSig : CScript) (hash : Uint256) : CTransaction where
  fOverwintered := true
  nVersion := saplingTxVersion
  nVersionGroupId := saplingVersionGroupId
  vin := [{ scriptSig }]
  vout := [{ nValue := 0 }]
  hash

def sampleGenesis : CBlock where
  vtx := [sampleCoinBase [0, 0] .null]

/-- A tree whose inner nodes are all zero. -/
def sampleTree : MerkleHash Uint256 where
  combine _ _ _ := .null
  uncommitted := .null
  emptyRoot _ := .null
  bytes := List.Vector.toList
  emptyRoot_zero := rfl
  emptyRoot_succ _ := rfl

/-- Block hashes are the first bytes of a header, except for the genesis block. -/
def sampleHashes : Hashes where
  hash bytes :=
    if bytes = sampleGenesis.toCBlockHeader.serialize then Params.main.hashGenesisBlock
    else ⟨(bytes ++ List.replicate 32 0).take 32, by simp⟩
  sprout := sampleTree
  sapling := sampleTree

def sampleParams : CChainParams :=
  CChainParams.main (fun _ => .scriptID (zeroBytes 20)) ⟨_, rfl⟩ ⟨_, rfl⟩ ⟨_, rfl⟩

/-- A transaction with a joinsplit and a transparent output. -/
def sampleJoinSplit : CTransaction where
  fOverwintered := true
  nVersion := saplingTxVersion
  nVersionGroupId := saplingVersionGroupId
  vout := [{ nValue := 0 }]
  vJoinSplit := [{
    nullifiers := ⟨[List.Vector.replicate 32 1, List.Vector.replicate 32 2], rfl⟩
    proof := .groth (zeroBytes 192) }]
  hash := List.Vector.replicate 32 2

/-- A transaction that spends the output of the other one. -/
def sampleSpend : CTransaction where
  fOverwintered := true
  nVersion := saplingTxVersion
  nVersionGroupId := saplingVersionGroupId
  vin := [{ prevout := { hash := sampleJoinSplit.hash, n := 0 } }]
  vout := [{ nValue := 0 }]
  hash := List.Vector.replicate 32 3

/-- The first block after the genesis block. -/
def sampleBlock : CBlock where
  hashPrevBlock := Params.main.hashGenesisBlock
  hashMerkleRoot := List.Vector.replicate 32 1
  vtx := [sampleCoinBase [Script.op1, 0] (List.Vector.replicate 32 1), sampleJoinSplit, sampleSpend]

/-- The view after the genesis block. -/
def sampleView : ViewState :=
  { emptyView sampleHashes with hashBlock := Params.main.hashGenesisBlock }

end Sample

end Resistance.Validation

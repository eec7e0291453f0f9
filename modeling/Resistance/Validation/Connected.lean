import Resistance.Validation.ConnectBlock

/-! What `ConnectBlock` did when it returned: one relation for a transaction, one for the loop
and one for the block, from which the properties of chains are derived.
-/

namespace Resistance.Validation

open Primitives Consensus Coins Chain Lib.Checks

section Relations

variable (env : Environment) (hashes : Hashes) (chainparams : CChainParams) (pindex : CBlockIndex)

/-- An ordinary transaction passed its checks and updated the view. -/
structure ConnectedTx (before : ViewState) (tx : CTransaction) (txundo : CTxUndo)
    (nTxFee : CAmount) (after : ViewState) : Prop where
  updates : ∃ spent, Updates pindex.nHeight before tx txundo spent after
  sprout : ∀ nf ∈ tx.sproutNullifiers, nf ∉ before.sprout.nullifiers
  sapling : ∀ nf ∈ tx.saplingNullifiers, nf ∉ before.sapling.nullifiers
  fee : ∃ nValueIn nValueOut nSpendHeight, before.getValueIn tx = .ok nValueIn
    ∧ tx.getValueOut = .ok nValueOut
    ∧ nTxFee = nValueIn - nValueOut
    ∧ checkTxInputs env hashes chainparams.consensus before tx nSpendHeight = .ok ()

/-- The transactions after the coinbase were connected, with their fees. -/
inductive ConnectedTxs
    : ViewState → List CTransaction → List CTxUndo → CAmount → ViewState → Prop
  | nil (view) : ConnectedTxs view [] [] 0 view
  | cons {before middle after tx vtx txundo vtxundo nTxFee nFees}
    (first : ConnectedTx env hashes chainparams pindex before tx txundo nTxFee middle)
    (rest : ConnectedTxs middle vtx vtxundo nFees after)
    : ConnectedTxs before (tx :: vtx) (txundo :: vtxundo) (nTxFee + nFees) after

/-- A block that is not the genesis block was connected. -/
structure ConnectedBlock (before : ViewState) (block : CBlock) (blockundo : CBlockUndo)
    (after : ViewState) (coinbase : CTransaction) (vtx : List CTransaction)
    (middle last : ViewState) (nFees : CAmount) : Prop where
  checked : CheckedBlock block coinbase vtx
  previous : pindex.pprev.elim .null CBlockIndex.hash = before.hashBlock
  unused : ∀ tx ∈ block.vtx, ∀ n, before.coins.utxo tx.getHash n = none
  first : Updates pindex.nHeight before coinbase {} before.coins middle
  rest : ConnectedTxs env hashes chainparams pindex middle vtx blockundo.vtxundo nFees last
  oldSproutTreeRoot : blockundo.oldSproutTreeRoot = before.sprout.hashAnchor
  rewards : connectCheckRewards chainparams pindex.nHeight nFees coinbase = .ok ()
  coins : after.coins = last.coins
  sprout : ∃ tree, after.sprout = last.sprout.pushAnchor hashes.sprout sproutTreeDepth tree
  sapling : ∃ tree, after.sapling = last.sapling.pushAnchor hashes.sapling saplingTreeDepth tree
    ∧ (chainparams.consensus.networkUpgradeActive pindex.nHeight .sapling = true →
      block.hashFinalSaplingRoot = tree.root hashes.sapling saplingTreeDepth)
  hashBlock : after.hashBlock = pindex.hash

end Relations

variable {env : Environment} {hashes : Hashes} {chainparams : CChainParams}
  {pindex : CBlockIndex} {view before : ViewState} {tx : CTransaction} {i : Nat} {s : ConnectState}
  {blockundo : CBlockUndo}

theorem connectTx_ok {next} (run : connectTx env hashes chainparams pindex i s tx = .ok next)
    (ordinary : tx.isCoinBase = false) (later : 0 < i)
    : ∃ txundo nTxFee,
        ConnectedTx env hashes chainparams pindex s.view tx txundo nTxFee next.view
        ∧ next.vtxundo = s.vtxundo ++ [txundo]
        ∧ next.nFees = s.nFees + nTxFee := by
  simp only [connectTx, ordinary, Bool.false_eq_true, if_false, bind_ok, pure_ok] at run
  obtain ⟨nSigOps, _, checked, inputs, ⟨outputs, txundo⟩, update, _, _, _, _, rfl⟩ := run
  simp only [connectInputs, bind_ok, pure_ok, mapError_ok] at inputs
  obtain ⟨_, _, met, requirements, _, isMet, _, _, _, _, nValueIn, valueIn, nValueOut, valueOut,
    nSpendHeight, _, _, contextual, rfl⟩ := inputs
  obtain rfl : met = true := by simpa using isMet
  simp only [ViewState.haveShieldedRequirements, bind_ok, pure_ok, Bool.and_eq_true] at requirements
  obtain ⟨_, joinsplits, rfl, spends⟩ := requirements
  simp only [contextualCheckInputs, ordinary, Bool.false_eq_true, if_false, bind_ok] at contextual
  obtain ⟨_, txInputs, _⟩ := contextual
  refine ⟨txundo, nValueIn - nValueOut,
    ⟨updateCoins_ok update, ShieldedState.haveJoinSplits_fresh joinsplits,
      ShieldedState.haveSpends_fresh spends, ?_⟩, ?_, rfl⟩
  · exact ⟨nValueIn, nValueOut, nSpendHeight, valueIn, valueOut, rfl, txInputs⟩
  · exact if_pos later

theorem connectTxs_ok {next vtx} (run : connectTxs env hashes chainparams pindex i s vtx = .ok next)
    (ordinary : ∀ tx ∈ vtx, tx.isCoinBase = false) (later : 0 < i)
    : ∃ vtxundo nFees,
        ConnectedTxs env hashes chainparams pindex s.view vtx vtxundo nFees next.view
        ∧ next.vtxundo = s.vtxundo ++ vtxundo
        ∧ next.nFees = s.nFees + nFees := by
  induction vtx generalizing i s with
  | nil =>
    cases run
    exact ⟨[], 0, .nil _, by simp, by simp⟩
  | cons tx vtx ih =>
    simp only [connectTxs, bind_ok] at run
    obtain ⟨middle, first, rest⟩ := run
    simp only [List.mem_cons, forall_eq_or_imp] at ordinary
    obtain ⟨txundo, nTxFee, connected, undo, fee⟩ := connectTx_ok first ordinary.1 later
    obtain ⟨vtxundo, nFees, more, undos, fees⟩ := ih rest ordinary.2 i.succ_pos
    refine ⟨txundo :: vtxundo, nTxFee + nFees, .cons connected more, ?_, ?_⟩
    · rw [undos, undo, List.append_assoc, List.singleton_append]
    · rw [fees, fee, Int64.add_assoc]

/-- The coinbase spends nothing, and its fee does not count. -/
theorem connectTx_coinbase_ok {next}
    (run : connectTx env hashes chainparams pindex 0 s tx = .ok next)
    (coinbase : tx.isCoinBase = true)
    : Updates pindex.nHeight s.view tx {} s.view.coins next.view
      ∧ next.vtxundo = s.vtxundo ∧ next.nFees = s.nFees := by
  simp only [connectTx, coinbase, if_true, bind_ok, pure_ok] at run
  obtain ⟨nSigOps, _, _, rfl, ⟨outputs, txundo⟩, update, _, _, _, _, rfl⟩ := run
  obtain ⟨spent, spends, same⟩ := updateCoins_ok update
  rw [spendingInputs, if_pos coinbase] at spends
  cases txundo with
  | mk vprevout =>
    cases spends with
    | nil => exact ⟨⟨by rw [spendingInputs, if_pos coinbase]; exact .nil _, same⟩, rfl, rfl⟩

theorem checkBIP30_ok {block} (run : checkBIP30 view block = .ok ())
    : ∀ tx ∈ block.vtx, ∀ n, view.coins.utxo tx.getHash n = none := by
  intro tx mem n
  have pruned := throwIf_ok.mp (forM_ok.mp run tx mem)
  rw [CoinsMap.utxo]
  cases found : view.coins.lookup tx.getHash with
  | none => rfl
  | some coins =>
    rw [found] at pruned
    refine CCoins.isPruned_iff.mp ?_ n
    simpa using pruned

theorem connectStart_ok (run : connectStart hashes view = .ok s)
    : s.view = view ∧ s.vtxundo = [] ∧ s.nFees = 0 := by
  unfold connectStart at run
  split at run
  · cases run
  simp only [bind_ok] at run
  obtain ⟨_, _, run⟩ := run
  split at run
  · cases run
  · cases run
    exact ⟨rfl, rfl, rfl⟩

/-- What follows from a block that was connected. -/
theorem connectBlock_ok {block after}
    (run : connectBlock env hashes chainparams pindex block before false
      = .ok (after, blockundo))
    (nonGenesis : block.getHash hashes.hash ≠ chainparams.consensus.hashGenesisBlock)
    : ∃ coinbase vtx middle last nFees, ConnectedBlock env hashes chainparams pindex before
        block blockundo after coinbase vtx middle last nFees := by
  simp only [connectBlock, nonGenesis, if_false, bind_ok, throwIf_ok, not_not, Prod.exists] at run
  obtain ⟨_, checkedRun, _, previous, view, undo, connected, rfl, rfl⟩ := run
  obtain ⟨coinbase, vtx, checked⟩ := checkedBlock_of_checkBlock checkedRun
  simp only [connectTransactions, bind_ok] at connected
  obtain ⟨_, _, _, unused, start, started, s, loop, anchored, anchors, finish⟩ := connected
  rw [checked.split] at loop finish
  simp only [bind_ok] at finish
  obtain ⟨_, rewards, _, _, rfl, rfl⟩ := finish
  simp only [connectAnchors, bind_ok, throwIf_ok, pure_ok] at anchors
  obtain ⟨_, root, rfl⟩ := anchors
  obtain ⟨rfl, noUndo, noFees⟩ := connectStart_ok started
  simp only [connectTxs, bind_ok] at loop
  obtain ⟨second, first, rest⟩ := loop
  obtain ⟨coinbaseUpdates, undo0, fees0⟩ := connectTx_coinbase_ok first checked.coinbase
  obtain ⟨vtxundo, nFees, connectedRest, undos, fees⟩ :=
    connectTxs_ok rest checked.ordinary Nat.one_pos
  have allUndo : s.vtxundo = vtxundo := by rw [undos, undo0, noUndo, List.nil_append]
  have allFees : s.nFees = nFees := by rw [fees, fees0, noFees, Int64.zero_add]
  refine ⟨coinbase, vtx, second.view, s.view, nFees, {
    checked
    previous
    unused := checkBIP30_ok unused
    first := coinbaseUpdates
    rest := by rw [allUndo]; exact connectedRest
    oldSproutTreeRoot := rfl
    rewards := by rw [← allFees]; exact rewards
    coins := rfl
    sprout := ⟨s.sproutTree, rfl⟩
    sapling := ⟨s.saplingTree, rfl, fun active => ?_⟩
    hashBlock := rfl }⟩
  by_contra wrong
  exact root ⟨active, wrong⟩

/-- The transactions of the genesis block are not connected. -/
theorem connectBlock_genesis_ok {genesis after}
    (hash : genesis.getHash hashes.hash = chainparams.consensus.hashGenesisBlock)
    (run : connectBlock env hashes chainparams pindex genesis before false
      = .ok (after, blockundo))
    : after = { before with hashBlock := pindex.hash } := by
  simp only [connectBlock, hash, if_true, bind_ok, pure_ok] at run
  obtain ⟨_, _, _, _, _, rfl, connected⟩ := run
  exact (Prod.mk.inj connected).1.symm

theorem getHash_sampleGenesis
    : sampleGenesis.getHash sampleHashes.hash = sampleParams.consensus.hashGenesisBlock := by
  decide +kernel

theorem connectBlock_sampleGenesis
    : ∃ blockundo, connectBlock sampleEnvironment sampleHashes sampleParams
        (addToBlockIndex sampleHashes.hash sampleGenesis none) sampleGenesis
        (emptyView sampleHashes) false = .ok (sampleView, blockundo) := by
  obtain ⟨⟨view, blockundo⟩, run⟩ := exists_of_isOk (x :=
    connectBlock sampleEnvironment sampleHashes sampleParams
      (addToBlockIndex sampleHashes.hash sampleGenesis none) sampleGenesis
      (emptyView sampleHashes) false) (by decide +kernel)
  obtain rfl : view = sampleView := by
    rw [connectBlock_genesis_ok getHash_sampleGenesis run]
    exact congrArg (ViewState.mk _ _ _) getHash_sampleGenesis
  exact ⟨blockundo, run⟩

end Resistance.Validation

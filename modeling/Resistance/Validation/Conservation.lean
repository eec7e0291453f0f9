import Resistance.Validation.Connected

/-! No chain of blocks creates value: what is unspent and what the shielded pools hold never
exceeds the subsidies. Fees are what ordinary transactions leave, and the coinbase may take
them; all sums of a block are exact except that of the fees, which can only wrap to less.
-/

namespace Resistance.Validation

open List Primitives Consensus Coins Chain Lib Lib.Checks Int64

variable {env : Environment} {hashes : Hashes} {chainparams : CChainParams} {pindex : CBlockIndex}

section Fee

variable {params : Params} {inputs : ViewState} {tx : CTransaction} {nSpendHeight : Int}

/-- The two loops over the inputs, of `CheckTxInputs` and of `GetValueIn`, compute the same
sum, which the first has found to be in range.
-/
theorem checkTxInput_foldlM {vin : List CTxIn} {nValueIn total}
    (run : vin.foldlM (checkTxInput env params inputs tx nSpendHeight) nValueIn = .ok total)
    (there : ∀ txin ∈ vin, (inputs.coins.utxo txin.prevout.hash txin.prevout.n.toNat).isSome = true)
    (range : Money nValueIn.toInt)
    : Money total.toInt
      ∧ total.toInt = nValueIn.toInt
        + (vin.map fun txin => inputs.coins.valueAt txin.prevout).sum
      ∧ vin.foldlM (fun nResult txin => do
          return nResult + (← inputs.getOutputFor txin).nValue) nValueIn = .ok total := by
  induction vin generalizing nValueIn with
  | nil =>
    cases run
    exact ⟨range, by simp, rfl⟩
  | cons txin vin ih =>
    simp only [mem_cons, forall_eq_or_imp] at there
    obtain ⟨found, unspent⟩ := Option.isSome_iff_exists.mp there.1
    obtain ⟨middle, first, rest⟩ := foldlM_cons_ok.mp run
    obtain ⟨coins, txout, listed, output, rfl, middleRange, added⟩ := checkTxInput_ok range first
    obtain ⟨_, sameCoins, here⟩ := Option.bind_eq_some_iff.mp unspent
    cases listed.symm.trans sameCoins
    cases output.symm.trans (CCoins.unspent_eq_some_iff.mp here).1
    obtain ⟨totalRange, sum, again⟩ := ih rest there.2 middleRange
    have value : inputs.coins.valueAt txin.prevout = found.txout.nValue.toInt := by
      simp only [CoinsMap.valueAt, unspent, Option.elim_some]
    refine ⟨totalRange, ?_, foldlM_cons_ok.mpr ⟨_, ?_, again⟩⟩
    · rw [sum, added, map_cons, sum_cons, value, Int.add_assoc]
    · simp only [ViewState.getOutputFor, unspent]
      rfl

/-- The fee is exactly what the inputs are worth more than the outputs and what goes into the
pools, and it is not negative.
-/
theorem fee_of_checkTxInputs {nValueIn nValueOut}
    (run : checkTxInputs env hashes params inputs tx nSpendHeight = .ok ())
    (ordinary : tx.isCoinBase = false) (valueIn : inputs.getValueIn tx = .ok nValueIn)
    (valueOut : tx.getValueOut = .ok nValueOut)
    : 0 ≤ (nValueIn - nValueOut).toInt
      ∧ (nValueIn - nValueOut).toInt
        = (tx.vin.map fun txin => inputs.coins.valueAt txin.prevout).sum
          - tx.transparentOut - tx.intoSprout - tx.intoSapling := by
  simp only [checkTxInputs, bind_ok, throwIf_ok, mapError_ok] at run
  obtain ⟨_, haveInputs, _, _, _, _, total, summed, shielded, shieldedIn, _, range, out, outRun,
    _, enough, _⟩ := run
  obtain rfl := Except.ok.inj (outRun.symm.trans valueOut)
  have there := ViewState.utxo_of_haveInputs (by simpa using haveInputs) ordinary
  obtain ⟨totalRange, sum, again⟩ := checkTxInput_foldlM summed there Money.zero
  simp only [ViewState.getValueIn, ordinary, again, shieldedIn] at valueIn
  obtain ⟨_, ⟨⟩, _, ⟨⟩, rfl⟩ := valueIn
  obtain ⟨shieldedRange, shieldedSum⟩ := CTransaction.getShieldedValueIn_ok shieldedIn
  obtain ⟨outRange, outSum⟩ := CTransaction.getValueOut_ok valueOut
  have range : Money (total + shielded).toInt := moneyRange_iff.mp (by simpa using range)
  have added := totalRange.add shieldedRange
  rw [lt_iff_toInt_lt] at enough
  have bounds := And.intro range outRange
  rw [Money, Money, maxMoney_toInt] at bounds
  have fee := MachineInt.toInt_sub (a := total + shielded) (b := out)
    ⟨by omega, by omega⟩
  have sprout := tx.intoSprout_eq
  rw [toInt_zero] at sum
  refine ⟨by omega, by omega⟩

end Fee

section Transactions

variable {nHeight : Int} {before after : ViewState} {tx : CTransaction} {txundo : CTxUndo}
  {spent : CoinsMap}

section

variable (updates : Updates nHeight before tx txundo spent after) (checked : Checked tx)
  (nonneg : before.coins.NonNegative)
include updates checked nonneg

theorem Updates.nonNegative
    : after.coins.NonNegative := by
  intro txid n found there
  rw [updates.utxo] at there
  split at there
  · exact (checked.outputs _ (CCoins.mem_of_unspent_fromTx there)).1
  · exact nonneg txid n found (updates.spends.utxo_of_utxo there)

/-- What was left of a transaction with the same id is overwritten, which only takes value
away.
-/
theorem Updates.value_le
    : after.coins.value + ((spendingInputs tx).map fun txin =>
        before.coins.valueAt txin.prevout).sum
      ≤ before.coins.value + tx.transparentOut := by
  have left : spent.NonNegative := fun txid n found there =>
    nonneg txid n found (updates.spends.utxo_of_utxo there)
  have overwritten := left.getOrClear tx.getHash
  have created := CCoins.value_fromTx_le nHeight fun txout listed =>
    (checked.outputs txout listed).1
  have spentValue := updates.spends.value
  rw [updates.outputs]
  rw [CoinsMap.value_edit, CTransaction.transparentOut]
  omega

end

theorem ConnectedTx.value {nTxFee}
    (connected : ConnectedTx env hashes chainparams pindex before tx txundo nTxFee after)
    (ordinary : tx.isCoinBase = false) (checked : Checked tx) (nonneg : before.coins.NonNegative)
    : 0 ≤ nTxFee.toInt
      ∧ after.coins.value + tx.intoSprout + tx.intoSapling + nTxFee.toInt
        ≤ before.coins.value := by
  obtain ⟨spent, updates⟩ := connected.updates
  obtain ⟨nValueIn, nValueOut, nSpendHeight, valueIn, valueOut, rfl, run⟩ := connected.fee
  obtain ⟨fee, exactly⟩ := fee_of_checkTxInputs run ordinary valueIn valueOut
  have bound := updates.value_le checked nonneg
  rw [spendingInputs, ordinary] at bound
  simp only [Bool.false_eq_true, if_false] at bound
  exact ⟨fee, by omega⟩

/-- The transactions after the coinbase give up their fees, of which the block adds up what
64 bits can hold.
-/
theorem ConnectedTxs.value {vtx vtxundo nFees}
    (connected : ConnectedTxs env hashes chainparams pindex before vtx vtxundo nFees after)
    (ordinary : ∀ tx ∈ vtx, tx.isCoinBase = false) (checked : ∀ tx ∈ vtx, Checked tx)
    (nonneg : before.coins.NonNegative)
    : after.coins.NonNegative
      ∧ ∃ fees : Int, nFees = ofInt fees ∧ 0 ≤ fees
        ∧ after.coins.value + (vtx.map CTransaction.intoSprout).sum
            + (vtx.map CTransaction.intoSapling).sum + fees
          ≤ before.coins.value := by
  induction connected with
  | nil view => exact ⟨nonneg, 0, rfl, Int.le_refl 0, by simp⟩
  | @cons before middle after tx vtx txundo vtxundo nTxFee nFees first rest ih =>
    simp only [mem_cons, forall_eq_or_imp] at ordinary checked
    obtain ⟨_, updates⟩ := first.updates
    obtain ⟨fee, step⟩ := first.value ordinary.1 checked.1 nonneg
    obtain ⟨kept, fees, rfl, feesNonneg, run⟩ :=
      ih ordinary.2 checked.2 (updates.nonNegative checked.1 nonneg)
    refine ⟨kept, nTxFee.toInt + fees, ?_, Int.add_nonneg fee feesNonneg, ?_⟩
    · rw [ofInt_add, ofInt_toInt]
    · simp only [map_cons, sum_cons]
      omega

end Transactions

/-- The coinbase takes at most the fees and the subsidy. -/
theorem transparentOut_le_of_rewards {nHeight} {fees} {coinbase}
    (run : connectCheckRewards chainparams nHeight (ofInt fees) coinbase = .ok ())
    (nonneg : 0 ≤ fees) (sprout : coinbase.vJoinSplit = [])
    : coinbase.transparentOut
      ≤ fees + (getBlockSubsidy nHeight chainparams.consensus).toInt := by
  simp only [connectCheckRewards, connectCheckAmount, bind_ok, mapError_ok, throwIf_ok] at run
  obtain ⟨_, ⟨nValueOut, valueOut, bound⟩, _⟩ := run
  obtain ⟨_, sum⟩ := CTransaction.getValueOut_ok valueOut
  have subsidy := (MachineInt.toInt_range (getBlockSubsidy nHeight chainparams.consensus)).1
  have wrapped := MachineInt.toInt_ofInt_le
    (x := fees + (getBlockSubsidy nHeight chainparams.consensus).toInt) (by omega)
  rw [ofInt_add, ofInt_toInt] at wrapped
  rw [gt_iff_lt, lt_iff_toInt_lt] at bound
  simp only [sprout, map_nil, sum_nil] at sum
  omega

/-- A block adds at most its subsidy to what is unspent and in the pools. -/
theorem ConnectedBlock.value {before after middle last block blockundo coinbase vtx nFees}
    (connected : ConnectedBlock env hashes chainparams pindex before block blockundo after
      coinbase vtx middle last nFees) (nonneg : before.coins.NonNegative)
    : after.coins.NonNegative
      ∧ after.coins.value + intoSprout block + intoSapling block
        ≤ before.coins.value
          + (getBlockSubsidy pindex.nHeight chainparams.consensus).toInt := by
  obtain ⟨split, isCoinBase, ordinary, checked⟩ := connected.checked
  rw [split, forall_mem_cons] at checked
  obtain ⟨sprout, _, _, sapling⟩ := checked.1.coinbase isCoinBase
  obtain ⟨kept, fees, rfl, feesNonneg, run⟩ := connected.rest.value ordinary checked.2
    (connected.first.nonNegative checked.1 nonneg)
  have taken := transparentOut_le_of_rewards connected.rewards feesNonneg sprout
  have first := connected.first.value_le checked.1 nonneg
  rw [spendingInputs, if_pos isCoinBase, map_nil, sum_nil] at first
  have noSprout : coinbase.intoSprout = 0 := by rw [CTransaction.intoSprout, sprout]; rfl
  have noSapling : coinbase.intoSapling = 0 := by rw [CTransaction.intoSapling, sapling]; rfl
  rw [connected.coins]
  refine ⟨kept, ?_⟩
  rw [intoSprout, intoSapling, split]
  simp only [map_cons, sum_cons]
  omega

variable (hashes chainparams) in
/-- The blocks after the genesis block, the last one first, were each accepted on top of the
previous one, and the view is the one after the last of them.
-/
inductive AcceptedChain (genesis : CBlock) : List CBlock → ViewState → Prop
  | genesis {env view blockundo}
    (hash : genesis.getHash hashes.hash = chainparams.consensus.hashGenesisBlock)
    (run : connectBlock env hashes chainparams (addToBlockIndex hashes.hash genesis none)
      genesis (emptyView hashes) false = .ok (view, blockundo))
    : AcceptedChain genesis [] view
  | connect {checkEnv env blocks block before after blockundo strict}
    (chain : AcceptedChain genesis blocks before)
    (nonGenesis : block.getHash hashes.hash ≠ chainparams.consensus.hashGenesisBlock)
    (check : checkBlock checkEnv hashes block strict true true = .ok ())
    (contextual : contextualCheckBlock checkEnv chainparams block
      (chainIndex hashes.hash (blocks ++ [genesis])) = .ok ())
    (run : connectBlock env hashes chainparams (indexOn hashes.hash genesis blocks block)
      block before false = .ok (after, blockundo))
    : AcceptedChain genesis (block :: blocks) after

/-- The subsidies of the blocks after the genesis block, up to a height. -/
def totalSubsidy (params : Params) (height : Nat) : Int :=
  ∑ h ∈ Finset.range height, (getBlockSubsidy (h + 1 : Nat) params).toInt

theorem AcceptedChain.nonNegative_and_value {genesis blocks view}
    (chain : AcceptedChain hashes chainparams genesis blocks view)
    : view.coins.NonNegative
      ∧ view.coins.value + sproutPool blocks + saplingPool blocks
        ≤ totalSubsidy chainparams.consensus blocks.length := by
  induction chain with
  | genesis hash run =>
    rw [connectBlock_genesis_ok hash run]
    exact ⟨nofun, Int.le_refl 0⟩
  | @connect _ _ blocks block before after _ _ _ nonGenesis _ _ run ih =>
    obtain ⟨nonneg, bound⟩ := ih
    obtain ⟨_, _, _, _, _, connected⟩ := connectBlock_ok run nonGenesis
    obtain ⟨kept, step⟩ := connected.value nonneg
    rw [nHeight_indexOn] at step
    refine ⟨kept, ?_⟩
    rw [totalSubsidy] at bound ⊢
    rw [length_cons, Finset.sum_range_succ, sproutPool, saplingPool, map_cons,
      map_cons, sum_cons, sum_cons]
    rw [sproutPool, saplingPool] at bound
    omega

/-- Value is conserved: after every block, the unspent outputs and the two shielded pools
together hold at most the subsidies of the blocks that were connected.
-/
theorem value_le_totalSubsidy {genesis : CBlock} {blocks : List CBlock} {view : ViewState}
    (chain : AcceptedChain hashes chainparams genesis blocks view)
    : view.coins.value + sproutPool blocks + saplingPool blocks
      ≤ totalSubsidy chainparams.consensus blocks.length :=
  chain.nonNegative_and_value.2

theorem value_le_totalSubsidy_first
    : ∃ view, AcceptedChain sampleHashes sampleParams sampleGenesis [sampleBlock] view
        ∧ view.coins.value + sproutPool [sampleBlock] + saplingPool [sampleBlock]
          ≤ totalSubsidy sampleParams.consensus 1 := by
  obtain ⟨_, genesisRun⟩ := connectBlock_sampleGenesis
  obtain ⟨⟨view, blockundo⟩, run⟩ := exists_of_isOk (x :=
    connectBlock sampleEnvironment sampleHashes sampleParams
      (indexOn sampleHashes.hash sampleGenesis [] sampleBlock) sampleBlock sampleView false)
    (by decide +kernel)
  have check : checkBlock sampleEnvironment sampleHashes sampleBlock true true true = .ok () := by
    decide +kernel
  have contextual : contextualCheckBlock sampleEnvironment sampleParams sampleBlock
      (chainIndex sampleHashes.hash ([] ++ [sampleGenesis])) = .ok () := by
    decide +kernel
  have chain := (AcceptedChain.genesis getHash_sampleGenesis genesisRun).connect
    (by decide +kernel) check contextual run
  exact ⟨view, chain, value_le_totalSubsidy chain⟩

end Resistance.Validation

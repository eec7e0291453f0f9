import Mathlib.Data.Vector.Mem
import Resistance.Validation.Ledger

/-! `DisconnectBlock` undoes `ConnectBlock`: with the undo data that was made for a block, it
gives back the view to which the block was connected.
-/

namespace Resistance.Validation

open List Primitives Consensus Coins Chain Zcash Lib.Checks

variable {env : Environment} {hashes : Hashes} {chainparams : CChainParams} {pindex : CBlockIndex}

/-- Two views with the same unspent outputs, nullifiers, best anchors and best block. -/
structure SameView (a b : ViewState) : Prop where
  utxo : ∀ txid n, a.coins.utxo txid n = b.coins.utxo txid n
  sproutNullifiers : a.sprout.nullifiers = b.sprout.nullifiers
  saplingNullifiers : a.sapling.nullifiers = b.sapling.nullifiers
  sproutAnchor : a.sprout.hashAnchor = b.sprout.hashAnchor
  saplingAnchor : a.sapling.hashAnchor = b.sapling.hashAnchor
  hashBlock : a.hashBlock = b.hashBlock

theorem Checked.notNull {tx} (checked : Checked tx)
    : ∀ txout ∈ tx.vout, txout.isNull = false := by
  intro txout mem
  have range := checked.outputs txout mem
  rw [CTxOut.isNull, beq_eq_false_iff_ne]
  intro null
  rw [null] at range
  exact absurd range.1 (by decide)

section Forward

variable {nHeight : Int} {before after : ViewState} {spent : CoinsMap} {tx : CTransaction}
  {txundo : CTxUndo} {vtx : List CTransaction} {vtxundo : List CTxUndo} {nFees : CAmount}

theorem Updates.tidy (updates : Updates nHeight before tx txundo spent after) (checked : Checked tx)
    {txid} (tidy : txid = tx.getHash ∨ before.coins.TidyAt txid)
    : after.coins.TidyAt txid := by
  have blank := CCoins.blank_fromTx nHeight checked.notNull
  rw [updates.outputs]
  rcases tidy with rfl | fine
  · exact CoinsMap.tidyAt_edit_self blank
  · exact (updates.spends.tidy fine).edit fun _ => blank

theorem ConnectedTxs.tidy
    (connected : ConnectedTxs env hashes chainparams pindex before vtx vtxundo nFees after)
    (checked : ∀ tx ∈ vtx, Checked tx) {txid}
    (tidy : (∃ tx ∈ vtx, txid = tx.getHash) ∨ before.coins.TidyAt txid)
    : after.coins.TidyAt txid := by
  induction connected with
  | nil =>
    rcases tidy with ⟨_, mem, _⟩ | fine
    · cases mem
    · exact fine
  | cons first rest ih =>
    obtain ⟨spent, updates⟩ := first.updates
    simp only [mem_cons, forall_eq_or_imp] at checked
    refine ih checked.2 ?_
    rcases tidy with ⟨tx, mem, same⟩ | fine
    · rcases mem_cons.mp mem with rfl | below
      · exact .inr (updates.tidy checked.1 (.inl same))
      · exact .inl ⟨tx, below, same⟩
    · exact .inr (updates.tidy checked.1 (.inr fine))

end Forward

/-- No two different transactions have the same id. -/
def NoCollision (vtx : List CTransaction) : Prop :=
  ∀ a ∈ vtx, ∀ b ∈ vtx, a.getHash = b.getHash → a = b

/-- A transaction that is not a coinbase spends an output or reveals a nullifier. -/
theorem Checked.ledger_funded {tx} (checked : Checked tx) (ordinary : tx.isCoinBase = false)
    (nHeight : Int)
    : (ledgerTx nHeight tx).inputs ≠ [] ∨ (ledgerTx nHeight tx).nullifiers ≠ [] := by
  rcases checked.funded with inputs | joinsplits | spends
  · left
    simpa [ledgerTx, spendingInputs, ordinary] using inputs
  · right
    obtain ⟨joinsplit, mem⟩ := exists_mem_of_ne_nil _ joinsplits
    have revealed : joinsplit.nullifiers.head ∈ tx.sproutNullifiers :=
      mem_flatMap.mpr ⟨joinsplit, mem, List.Vector.head_mem _⟩
    exact ne_nil_of_mem (mem_append_left _ (mem_map_of_mem revealed))
  · right
    obtain ⟨spend, mem⟩ := exists_mem_of_ne_nil _ spends
    have revealed : spend.nullifier ∈ tx.saplingNullifiers := mem_map_of_mem mem
    exact ne_nil_of_mem (mem_append_right _ (mem_map_of_mem revealed))

variable {before after : ViewState}

section

variable {vtx : List CTransaction} {vtxundo : List CTxUndo} {nFees : CAmount}
  (connected : ConnectedTxs env hashes chainparams pindex before vtx vtxundo nFees after)
include connected

/-- The transactions after the coinbase have ids of their own. -/
theorem ConnectedTxs.distinct
    (noCollision : NoCollision vtx) (ordinary : ∀ tx ∈ vtx, tx.isCoinBase = false)
    (checked : ∀ tx ∈ vtx, Checked tx)
    (unused : ∀ tx ∈ vtx, ∀ n, before.coins.utxo tx.getHash n = none)
    : vtx.Pairwise (fun a b => b.getHash ≠ a.getHash) := by
  have nothing : Lib.UtxoLedger.Valid before.ledger [] := .nil
  have valid := (connected.ledger checked nothing rfl).1
  rw [append_nil] at valid
  have source : ∀ entry ∈ (vtx.map (ledgerTx pindex.nHeight)).reverse,
      ∃ tx ∈ vtx, ledgerTx pindex.nHeight tx = entry := fun entry mem =>
    mem_map.mp (mem_reverse.mp mem)
  have ids := valid.ids_nodup ?_ ?_ ?_
  · rw [map_reverse, nodup_reverse, map_map] at ids
    exact (pairwise_map.mp ids).imp Ne.symm
  · intro entry mem
    obtain ⟨tx, listed, rfl⟩ := source entry mem
    exact unused tx listed
  · intro first memberFirst second memberSecond same
    obtain ⟨a, listedA, rfl⟩ := source first memberFirst
    obtain ⟨b, listedB, rfl⟩ := source second memberSecond
    rw [noCollision a listedA b listedB same]
  · intro entry mem
    obtain ⟨tx, listed, rfl⟩ := source entry mem
    exact (checked tx listed).ledger_funded (ordinary tx listed) _

theorem ConnectedTxs.anchors
    : after.sprout.hashAnchor = before.sprout.hashAnchor
      ∧ after.sapling.hashAnchor = before.sapling.hashAnchor
      ∧ vtxundo.length = vtx.length := by
  induction connected with
  | nil => exact ⟨rfl, rfl, rfl⟩
  | cons first rest ih =>
    obtain ⟨spent, updates⟩ := first.updates
    obtain ⟨sprout, sapling, length⟩ := ih
    rw [sprout, sapling, updates.outputs, length_cons, length]
    exact ⟨rfl, rfl, rfl⟩

end

section Block

variable {block : CBlock} {blockundo : CBlockUndo} {coinbase : CTransaction}
  {vtx : List CTransaction} {middle last : ViewState} {nFees : CAmount}

section

variable (connected : ConnectedBlock env hashes chainparams pindex before block blockundo after
  coinbase vtx middle last nFees)
include connected

/-- Without collisions, no two transactions of a connected block share an id. -/
theorem ConnectedBlock.distinct (noCollision : NoCollision block.vtx)
    : block.vtx.Pairwise (fun a b => b.getHash ≠ a.getHash) := by
  have unused := connected.unused
  have checked := connected.checked.checked
  have ordinary := connected.checked.ordinary
  rw [connected.checked.split] at noCollision unused checked ⊢
  have others : ∀ tx ∈ vtx, tx.getHash ≠ coinbase.getHash := by
    intro tx mem same
    have again := noCollision tx (mem_cons_of_mem _ mem) coinbase mem_cons_self same
    have isCoinBase := connected.checked.coinbase
    rw [← again, ordinary tx mem] at isCoinBase
    cases isCoinBase
  refine pairwise_cons.mpr ⟨others, connected.rest.distinct ?_ ordinary ?_ ?_⟩
  · exact fun a memberA b memberB => noCollision a (mem_cons_of_mem _ memberA) b
      (mem_cons_of_mem _ memberB)
  · exact fun tx mem => checked tx (mem_cons_of_mem _ mem)
  · exact fun tx mem => connected.first.utxo_eq_none (others tx mem)
      (unused tx (mem_cons_of_mem _ mem))

theorem ConnectedBlock.cleanOutputs
    : CleanOutputs last block.vtx := by
  have checked := connected.checked.checked
  intro tx mem
  refine ⟨(checked tx mem).notNull, ?_⟩
  rw [connected.checked.split] at mem checked
  simp only [mem_cons, forall_eq_or_imp] at checked
  rcases mem_cons.mp mem with rfl | below
  · exact connected.rest.tidy checked.2 (.inr (connected.first.tidy checked.1 (.inl rfl)))
  · exact connected.rest.tidy checked.2 (.inl ⟨tx, below, rfl⟩)

/-- When the transactions of a block are undone, its anchors can be popped. -/
theorem ConnectedBlock.popAnchors {ignored view} (undone : Undone ignored after view before)
    : (∃ sprout, view.sprout.popAnchor before.sprout.hashAnchor = .ok sprout
        ∧ sprout.hashAnchor = before.sprout.hashAnchor
        ∧ sprout.nullifiers = before.sprout.nullifiers)
      ∧ ∃ sapling, view.sapling.popAnchor before.sapling.hashAnchor = .ok sapling
        ∧ sapling.hashAnchor = before.sapling.hashAnchor
        ∧ sapling.nullifiers = before.sapling.nullifiers := by
  obtain ⟨sproutAnchor, saplingAnchor, _⟩ := connected.rest.anchors
  rw [connected.first.outputs] at sproutAnchor saplingAnchor
  obtain ⟨sproutTree, sprout⟩ := connected.sprout
  obtain ⟨saplingTree, sapling, _⟩ := connected.sapling
  have popSprout := ShieldedState.popAnchor_pushAnchor hashes.sprout sproutTreeDepth
    last.sprout sproutTree before.sprout.nullifiers
  have popSapling := ShieldedState.popAnchor_pushAnchor hashes.sapling saplingTreeDepth
    last.sapling saplingTree before.sapling.nullifiers
  rw [← sprout, ← undone.sprout, sproutAnchor] at popSprout
  rw [← sapling, ← undone.sapling, saplingAnchor] at popSapling
  exact ⟨popSprout, popSapling⟩

end

end Block

/-- Disconnecting a block right after it was connected gives back the view: if the best
Sapling anchor of the view is the one of the previous block, and different transactions of
the block have different ids.
-/
theorem disconnectBlock_connectBlock {prev : CBlockIndex} {block : CBlock}
    {view connected : ViewState} {blockundo : CBlockUndo}
    (heights : ∀ txid coins, view.coins.lookup txid = some coins → 1 ≤ coins.nHeight)
    (nonGenesis : block.getHash hashes.hash ≠ chainparams.consensus.hashGenesisBlock)
    (parent : pindex.pprev = some prev)
    (anchor : view.sapling.hashAnchor = finalSaplingRoot hashes chainparams prev)
    (noCollision : NoCollision block.vtx)
    (run : connectBlock env hashes chainparams pindex block view false
      = .ok (connected, blockundo))
    : ∃ restored, disconnectBlock hashes chainparams block pindex connected (some blockundo)
        = .ok (.ok, restored)
      ∧ SameView restored view := by
  obtain ⟨coinbase, vtx, middle, last, nFees, ok⟩ := connectBlock_ok run nonGenesis
  have pos : pindex.nHeight ≠ 0 := by
    have nonneg := prev.nHeight_nonneg
    rw [CBlockIndex.nHeight_of_pprev parent]
    omega
  have aged : Aged view.coins := by
    intro txid n found there
    obtain ⟨coins, listed, unspent⟩ := Option.bind_eq_some_iff.mp there
    obtain ⟨_, _, _, height, _⟩ := CCoins.unspent_eq_some_iff.mp unspent
    have age := heights txid coins listed
    omega
  have distinct : Distinct (fun _ => False) block.vtx :=
    (ok.distinct noCollision).imp fun differ _ => differ
  obtain ⟨next, undoRun, undone, clean⟩ := ok.undo pos aged distinct
    (s := { view := connected }) (undone_of_ledger_eq ok.ledger_last _)
  have outputs := ok.cleanOutputs
  rw [CleanOutputs, ← ok.coins] at outputs
  have cleanly : next.fClean = true := (clean (fun _ => not_false) outputs).fClean
  obtain ⟨⟨sprout, popSprout, sproutAnchor, sproutNullifiers⟩,
    sapling, popSapling, saplingAnchor, saplingNullifiers⟩ := ok.popAnchors undone
  rw [← ok.oldSproutTreeRoot] at popSprout
  rw [anchor] at popSapling
  have disconnected : disconnectView hashes chainparams block pindex connected
      (some blockundo) = .ok ({ next.view with sprout, sapling, hashBlock := prev.hash }, true) :=
    (disconnectView_ok parent).mpr ⟨ok.hashBlock.symm,
      by rw [ok.checked.split, length_cons, ok.rest.anchors.2.2], next, sprout, sapling,
      undoRun, popSprout, popSapling, rfl, cleanly.symm⟩
  refine ⟨_, by rw [disconnectBlock, disconnected]; rfl, ?_⟩
  have previous := ok.previous
  rw [parent] at previous
  exact {
    utxo := fun txid n => undone.coins txid not_false n
    sproutNullifiers
    saplingNullifiers
    sproutAnchor
    saplingAnchor
    hashBlock := previous }

section Sample

theorem noCollision_sampleBlock : NoCollision sampleBlock.vtx := by
  unfold NoCollision
  decide +kernel

theorem heights_sampleView (txid : Uint256) (coins : CCoins)
    (found : sampleView.coins.lookup txid = some coins)
    : 1 ≤ coins.nHeight := by
  cases (AList.lookup_empty txid).symm.trans found

theorem disconnectBlock_connectBlock_first
    : let pindex := indexOn sampleHashes.hash sampleGenesis [] sampleBlock
      ∃ connected blockundo restored,
        connectBlock sampleEnvironment sampleHashes sampleParams pindex sampleBlock sampleView
          false = .ok (connected, blockundo)
        ∧ disconnectBlock sampleHashes sampleParams sampleBlock pindex connected
          (some blockundo) = .ok (.ok, restored)
        ∧ SameView restored sampleView := by
  intro pindex
  obtain ⟨⟨connected, blockundo⟩, run⟩ := exists_of_isOk (x :=
    connectBlock sampleEnvironment sampleHashes sampleParams pindex sampleBlock sampleView false)
    (by decide +kernel)
  obtain ⟨restored, disconnected, same⟩ := disconnectBlock_connectBlock
    heights_sampleView (by decide +kernel) rfl (by decide +kernel) noCollision_sampleBlock run
  exact ⟨connected, blockundo, restored, run, disconnected, same⟩

/-- A block with two different transactions that have the same id. -/
def sampleCollision : CBlock :=
  { sampleBlock with
    vtx := [sampleCoinBase [Script.op1, 0] (List.Vector.replicate 32 1), sampleJoinSplit,
      { sampleJoinSplit with
        vout := [{ nValue := 0, scriptPubKey := [0] }]
        vJoinSplit := [{
          nullifiers := ⟨[List.Vector.replicate 32 3, List.Vector.replicate 32 4], rfl⟩
          proof := .groth (zeroBytes 192) }] }] }

/-- Neither condition can be left out. If the previous block's header has another Sapling root
than the view, disconnecting leaves the view with that root; if two transactions of the block
have the same id, disconnecting finds that the outputs of one of them are missing.
-/
theorem disconnectBlock_not_inverse
    : (∃ (prev pindex : CBlockIndex) (view connected restored : ViewState)
        (blockundo : CBlockUndo),
        (∀ txid coins, view.coins.lookup txid = some coins → 1 ≤ coins.nHeight)
        ∧ sampleBlock.getHash sampleHashes.hash ≠ sampleParams.consensus.hashGenesisBlock
        ∧ pindex.pprev = some prev
        ∧ NoCollision sampleBlock.vtx
        ∧ connectBlock sampleEnvironment sampleHashes sampleParams pindex sampleBlock view false
          = .ok (connected, blockundo)
        ∧ disconnectBlock sampleHashes sampleParams sampleBlock pindex connected
          (some blockundo) = .ok (.ok, restored)
        ∧ restored.sapling.hashAnchor ≠ view.sapling.hashAnchor)
      ∧ ∃ (prev pindex : CBlockIndex) (view connected restored : ViewState)
        (blockundo : CBlockUndo),
        (∀ txid coins, view.coins.lookup txid = some coins → 1 ≤ coins.nHeight)
        ∧ sampleCollision.getHash sampleHashes.hash ≠ sampleParams.consensus.hashGenesisBlock
        ∧ pindex.pprev = some prev
        ∧ view.sapling.hashAnchor = finalSaplingRoot sampleHashes sampleParams prev
        ∧ connectBlock sampleEnvironment sampleHashes sampleParams pindex sampleCollision view
          false = .ok (connected, blockundo)
        ∧ disconnectBlock sampleHashes sampleParams sampleCollision pindex connected
          (some blockundo) = .ok (.unclean, restored) := by
  constructor
  · let root : Uint256 := List.Vector.replicate 32 1
    let prev := indexOn sampleHashes.hash sampleGenesis []
      { sampleBlock with hashFinalSaplingRoot := root }
    let pindex := addToBlockIndex sampleHashes.hash sampleBlock (some prev)
    let view := { sampleView with hashBlock := prev.hash }
    have computed : (do
        let connected ← connectBlock sampleEnvironment sampleHashes sampleParams pindex
          sampleBlock view false
        let restored ← disconnectBlock sampleHashes sampleParams sampleBlock pindex connected.1
          (some connected.2)
        pure (restored.1, restored.2.sapling.hashAnchor)) = .ok (.ok, root) := by
      decide +kernel
    simp only [bind_ok, pure_ok, Prod.exists, Prod.mk.injEq] at computed
    obtain ⟨connected, blockundo, run, _, restored, disconnected, rfl, anchor⟩ := computed
    refine ⟨prev, pindex, view, connected, restored, blockundo, heights_sampleView,
      by decide +kernel, rfl, noCollision_sampleBlock, run, disconnected, ?_⟩
    rw [anchor]
    decide +kernel
  · let pindex := indexOn sampleHashes.hash sampleGenesis [] sampleCollision
    have computed : (do
        let connected ← connectBlock sampleEnvironment sampleHashes sampleParams pindex
          sampleCollision sampleView false
        let restored ← disconnectBlock sampleHashes sampleParams sampleCollision pindex
          connected.1 (some connected.2)
        pure restored.1) = .ok .unclean := by
      decide +kernel
    simp only [bind_ok, pure_ok, Prod.exists] at computed
    obtain ⟨connected, blockundo, run, _, restored, disconnected, rfl⟩ := computed
    exact ⟨_, pindex, sampleView, connected, restored, blockundo, heights_sampleView,
      by decide +kernel, rfl, by decide +kernel, run, disconnected⟩

end Sample

end Resistance.Validation

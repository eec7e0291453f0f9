import Resistance.Validation.Ledger

/-! No double spend across reorganisations: a node connects and disconnects blocks along a tree
of blocks, and its view is always the ledger of the blocks that are connected.
-/

namespace Resistance.Validation

open Primitives Consensus Coins Chain Lib Lib.UtxoLedger

/-- A node that moves along a tree of blocks. A block of the tree is given by its way back to
the genesis block.
-/
structure Node where
  /-- The connected blocks after the genesis block, the last one first. -/
  blocks : List CBlock
  view : ViewState
  /-- The undo data that was written for blocks of the tree. -/
  undo : FiniteMap (List CBlock) CBlockUndo

/-- The node after a block was connected: its undo data is written the first time only. -/
def Node.connect (node : Node) (block : CBlock) (view : ViewState) (blockundo : CBlockUndo)
    : Node where
  blocks := block :: node.blocks
  view
  undo :=
    if (node.undo.lookup (block :: node.blocks)).isSome then node.undo
    else node.undo.insert (block :: node.blocks) blockundo

variable {hashes : Hashes} {chainparams : CChainParams} {genesis : CBlock}

variable (hashes chainparams genesis) in
/-- The states that a node reaches: each call may be made with other settings and another
clock, and a call that fails leaves the node as it was.
-/
inductive Reachable : Node → Prop
  | genesis {env view blockundo}
    (hash : genesis.getHash hashes.hash = chainparams.consensus.hashGenesisBlock)
    (run : connectBlock env hashes chainparams (addToBlockIndex hashes.hash genesis none)
      genesis (emptyView hashes) false = .ok (view, blockundo))
    : Reachable { blocks := [], view, undo := ∅ }
  | connect {node checkEnv env block view blockundo strict}
    (earlier : Reachable node)
    (nonGenesis : block.getHash hashes.hash ≠ chainparams.consensus.hashGenesisBlock)
    (check : checkBlock checkEnv hashes block strict true true = .ok ())
    (run : connectBlock env hashes chainparams
      (indexOn hashes.hash genesis node.blocks block) block node.view false
        = .ok (view, blockundo))
    : Reachable (node.connect block view blockundo)
  | disconnect {node block blocks result view}
    (earlier : Reachable node) (tip : node.blocks = block :: blocks)
    (run : disconnectBlock hashes chainparams block (indexOn hashes.hash genesis blocks block)
      node.view (node.undo.lookup node.blocks) = .ok (result, view))
    (done : result ≠ .failed)
    : Reachable { node with blocks, view }

variable (hashes chainparams genesis) in
/-- The undo data was made for the block, on a view with the ledger of the blocks below it. -/
def MadeFor (block : CBlock) (blocks : List CBlock) (blockundo : CBlockUndo) : Prop :=
  ∃ env before after, before.ledger = run .empty (chainTxs blocks)
    ∧ block.getHash hashes.hash ≠ chainparams.consensus.hashGenesisBlock
    ∧ connectBlock env hashes chainparams (indexOn hashes.hash genesis blocks block) block
        before false = .ok (after, blockundo)

variable (hashes chainparams genesis) in
/-- The invariant of a node. -/
structure Consistent (node : Node) : Prop where
  valid : Valid .empty (chainTxs node.blocks)
  ledger : node.view.ledger = run .empty (chainTxs node.blocks)
  undo : ∀ block blocks blockundo, node.undo.lookup (block :: blocks) = some blockundo →
    MadeFor hashes chainparams genesis block blocks blockundo

/-- Outputs of connected blocks have the height of a block after the genesis block. -/
theorem nHeight_of_mem_chainTxs {blocks tx} (mem : tx ∈ chainTxs blocks) {n found}
    (created : tx.outputs n = some found)
    : found.nHeight ≠ 0 := by
  induction blocks with
  | nil => cases mem
  | cons block blocks ih =>
    rcases List.mem_append.mp mem with here | below
    · obtain ⟨source, _, rfl⟩ := List.mem_map.mp (List.mem_reverse.mp here)
      obtain ⟨_, _, _, height, _⟩ := CCoins.unspent_eq_some_iff.mp created
      rw [← height]
      exact Int.natCast_ne_zero.mpr (Nat.succ_ne_zero _)
    · exact ih below

theorem aged_of_ledger {blocks} {view : ViewState}
    (ledger : view.ledger = run .empty (chainTxs blocks))
    : Aged view.coins := by
  intro txid n found there
  have unspent : (run .empty (chainTxs blocks)).utxo txid n = some found := by
    rw [← ledger]
    exact there
  rcases exists_of_utxo_run unspent with never | ⟨tx, mem, _, created⟩
  · cases never
  · exact nHeight_of_mem_chainTxs mem created

section Steps

variable {env : Environment} {node : Node} {block : CBlock} {blocks : List CBlock}
  {before view : ViewState} {blockundo : CBlockUndo}

/-- Connecting a block applies its transactions to the ledger. -/
theorem ledger_of_connectBlock
    (nonGenesis : block.getHash hashes.hash ≠ chainparams.consensus.hashGenesisBlock)
    (connected : connectBlock env hashes chainparams (indexOn hashes.hash genesis blocks block)
      block before false = .ok (view, blockundo))
    (valid : Valid .empty (chainTxs blocks)) (start : before.ledger = run .empty (chainTxs blocks))
    : Valid .empty (chainTxs (block :: blocks))
      ∧ view.ledger = run .empty (chainTxs (block :: blocks)) := by
  obtain ⟨_, _, _, _, _, ok⟩ := connectBlock_ok connected nonGenesis
  have extended := ok.ledger valid start
  rwa [nHeight_indexOn] at extended

theorem Consistent.connect (consistent : Consistent hashes chainparams genesis node)
    (nonGenesis : block.getHash hashes.hash ≠ chainparams.consensus.hashGenesisBlock)
    (connected : connectBlock env hashes chainparams
      (indexOn hashes.hash genesis node.blocks block) block node.view false
        = .ok (view, blockundo))
    : Consistent hashes chainparams genesis (node.connect block view blockundo) := by
  obtain ⟨valid, ledger⟩ := ledger_of_connectBlock nonGenesis connected consistent.valid
    consistent.ledger
  refine ⟨valid, ledger, fun other below stored found => ?_⟩
  simp only [Node.connect] at found
  split at found
  · exact consistent.undo other below stored found
  · rcases FiniteMap.lookup_insert_cases found with ⟨same, rfl⟩ | ⟨-, before⟩
    · obtain ⟨rfl, rfl⟩ := List.cons.inj same
      exact ⟨env, node.view, view, consistent.ledger, nonGenesis, connected⟩
    · exact consistent.undo other below stored before

/-- `DisconnectBlock` came to its end unless it failed, for which undo data is needed. -/
theorem disconnectView_of_done {pindex undo result}
    (disconnected : disconnectBlock hashes chainparams block pindex before undo
      = .ok (result, view)) (done : result ≠ .failed)
    : ∃ blockundo fClean, undo = some blockundo
        ∧ disconnectView hashes chainparams block pindex before (some blockundo)
          = .ok (view, fClean) := by
  unfold disconnectBlock at disconnected
  split at disconnected
  next restored fClean finished =>
    obtain ⟨_, rfl⟩ := Prod.mk.inj (Except.ok.inj disconnected)
    cases undo with
    | none =>
      simp only [disconnectView, Lib.Checks.bind_ok] at finished
      obtain ⟨_, _, finished⟩ := finished
      cases finished
    | some blockundo => exact ⟨blockundo, fClean, rfl, finished⟩
  · obtain ⟨rfl, _⟩ := Prod.mk.inj (Except.ok.inj disconnected)
    exact absurd rfl done
  · cases disconnected

/-- Disconnecting the last block takes its transactions back. -/
theorem ledger_of_disconnectView {fClean : Bool}
    (made : MadeFor hashes chainparams genesis block blocks blockundo)
    (valid : Valid .empty (chainTxs blocks))
    (start : before.ledger = run .empty (chainTxs (block :: blocks)))
    (disconnected : disconnectView hashes chainparams block
      (indexOn hashes.hash genesis blocks block) before (some blockundo) = .ok (view, fClean))
    : view.ledger = run .empty (chainTxs blocks) := by
  obtain ⟨env, origin, after, originLedger, nonGenesis, connected⟩ := made
  have afterLedger := (ledger_of_connectBlock nonGenesis connected valid originLedger).2
  obtain ⟨_, _, _, last, _, ok⟩ := connectBlock_ok connected nonGenesis
  obtain ⟨prev, parent⟩ : ∃ prev, (indexOn hashes.hash genesis blocks block).pprev = some prev := by
    cases blocks <;> exact ⟨_, rfl⟩
  obtain ⟨_, _, s, sprout, sapling, undoRun, sproutPop, saplingPop, rfl, _⟩ :=
    (disconnectView_ok parent).mp disconnected
  have undone : Undone (fun _ => False) before before last :=
    undone_of_ledger_eq (start.trans (afterLedger.symm.trans ok.ledger_last)) _
  have pos : (indexOn hashes.hash genesis blocks block).nHeight ≠ 0 := by
    rw [nHeight_indexOn]
    exact Int.natCast_ne_zero.mpr (Nat.succ_ne_zero _)
  have restored := ok.undo_all pos (aged_of_ledger originLedger) undone undoRun
  rw [← originLedger]
  refine ViewState.ledger_eq_iff.mpr ⟨fun txid => restored.coins txid not_false, ?_, ?_⟩
  · rw [ShieldedState.nullifiers_popAnchor sproutPop, restored.sprout]
  · rw [ShieldedState.nullifiers_popAnchor saplingPop, restored.sapling]

end Steps

/-- Every state that a node reaches is consistent. -/
theorem Reachable.consistent {node} (reachable : Reachable hashes chainparams genesis node)
    : Consistent hashes chainparams genesis node := by
  induction reachable with
  | genesis hash connected =>
    refine ⟨.nil, ?_, nofun⟩
    rw [connectBlock_genesis_ok hash connected]
    refine Ledger.ext rfl (Set.ext ?_)
    rintro ⟨_ | _, nf⟩ <;> exact iff_of_false (Finset.notMem_empty nf) not_false
  | connect _ nonGenesis _ connected ih => exact ih.connect nonGenesis connected
  | @disconnect node block blocks result view _ tip disconnected done ih =>
    obtain ⟨blockundo, fClean, stored, finished⟩ := disconnectView_of_done disconnected done
    have valid := ih.valid
    have ledger := ih.ledger
    rw [tip] at valid ledger stored
    exact ⟨valid.of_append,
      ledger_of_disconnectView (ih.undo block blocks blockundo stored) valid.of_append ledger
        finished, ih.undo⟩

/-- However a node connects and disconnects blocks, no two inputs of the connected blocks
consume the same output of the same transaction, and no two joinsplits or shielded spends
reveal the same nullifier of one pool.
-/
theorem no_double_spend {node : Node} (reachable : Reachable hashes chainparams genesis node)
    : (consumed (chainTxs node.blocks)).Nodup
      ∧ ((chainTxs node.blocks).flatMap Tx.nullifiers).Nodup :=
  ⟨reachable.consistent.valid.consumed_nodup, reachable.consistent.valid.nullifiers_nodup⟩

/-- A block is connected, disconnected and connected again. -/
theorem no_double_spend_reconnect
    : ∃ node, Reachable sampleHashes sampleParams sampleGenesis node
        ∧ node.blocks = [sampleBlock]
        ∧ (consumed (chainTxs node.blocks)).Nodup
        ∧ ((chainTxs node.blocks).flatMap Tx.nullifiers).Nodup := by
  let pindex := indexOn sampleHashes.hash sampleGenesis [] sampleBlock
  have computed : (do
      let connected ← connectBlock sampleEnvironment sampleHashes sampleParams pindex
        sampleBlock sampleView false
      let restored ← disconnectBlock sampleHashes sampleParams sampleBlock pindex connected.1
        (some connected.2)
      let _ ← connectBlock sampleEnvironment sampleHashes sampleParams pindex sampleBlock
        restored.2 false
      pure restored.1) = .ok .ok := by
    decide +kernel
  simp only [Lib.Checks.bind_ok, Lib.Checks.pure_ok, Prod.exists] at computed
  obtain ⟨view, blockundo, first, _, restored, disconnected, last, again, second, rfl⟩ := computed
  have nonGenesis : sampleBlock.getHash sampleHashes.hash
      ≠ sampleParams.consensus.hashGenesisBlock := by
    decide +kernel
  have check : checkBlock sampleEnvironment sampleHashes sampleBlock true true true = .ok () := by
    decide +kernel
  obtain ⟨_, run⟩ := connectBlock_sampleGenesis
  have connected := (Reachable.genesis getHash_sampleGenesis run).connect nonGenesis check first
  have back := connected.disconnect rfl
    ((congrArg (disconnectBlock _ _ _ _ _) (AList.lookup_insert _)).trans disconnected) (by simp)
  have reconnected := back.connect nonGenesis check second
  exact ⟨_, reconnected, rfl, no_double_spend reconnected⟩

/-- The ledger depends on the connected blocks only, not on the way to them. -/
theorem ledger_of_blocks (blocks : List CBlock)
    : ((fun node : Node => node.view.ledger) ''
        {node | Reachable hashes chainparams genesis node
          ∧ node.blocks = blocks}).Subsingleton := by
  rintro _ ⟨left, ⟨first, same⟩, rfl⟩ _ ⟨right, ⟨second, rfl⟩, rfl⟩
  exact first.consistent.ledger.trans (same ▸ second.consistent.ledger.symm)

end Resistance.Validation

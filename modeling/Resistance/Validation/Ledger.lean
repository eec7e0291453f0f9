import Resistance.Lib.UtxoLedger
import Resistance.Validation.DisconnectBlock

/-! Views as ledgers of unspent outputs and nullifiers: a block that `ConnectBlock` accepts is a
list of transactions that the ledger accepts, and the view after it is the ledger after them.
-/

namespace Resistance.Coins

open Primitives Lib.UtxoLedger

/-- What a view says of outputs and nullifiers. -/
def ViewState.ledger (view : ViewState) : Ledger Uint256 Unspent (ShieldedType × Uint256) where
  utxo := view.coins.utxo
  revealed := { nf | nf.2 ∈ (view.pool nf.1).nullifiers }

theorem ViewState.ledger_eq_iff {a b : ViewState}
    : a.ledger = b.ledger
      ↔ (∀ txid n, a.coins.utxo txid n = b.coins.utxo txid n)
        ∧ a.sprout.nullifiers = b.sprout.nullifiers
        ∧ a.sapling.nullifiers = b.sapling.nullifiers := by
  constructor
  · intro same
    refine ⟨fun txid n => congrFun (congrFun (congrArg Ledger.utxo same) txid) n, ?_, ?_⟩
    · ext nf
      exact Set.ext_iff.mp (congrArg Ledger.revealed same) (.sprout, nf)
    · ext nf
      exact Set.ext_iff.mp (congrArg Ledger.revealed same) (.sapling, nf)
  · rintro ⟨utxo, sprout, sapling⟩
    refine Ledger.ext (funext fun txid => funext (utxo txid)) (Set.ext ?_)
    rintro ⟨_ | _, nf⟩
    · exact iff_of_eq (congrArg (nf ∈ ·) sprout)
    · exact iff_of_eq (congrArg (nf ∈ ·) sapling)

end Resistance.Coins

namespace Resistance.Validation

open Primitives Consensus Coins Chain Lib.UtxoLedger

/-- What a transaction at a height spends, creates and reveals. -/
def ledgerTx (nHeight : Int) (tx : CTransaction)
    : Tx Uint256 Unspent (ShieldedType × Uint256) where
  id := tx.getHash
  inputs := (spendingInputs tx).map fun txin => (txin.prevout.hash, txin.prevout.n.toNat)
  outputs := (CCoins.fromTx tx nHeight).unspent
  nullifiers := tx.sproutNullifiers.map (ShieldedType.sprout, ·)
    ++ tx.saplingNullifiers.map (ShieldedType.sapling, ·)

/-- The transactions of the blocks after the genesis block, the last one first. -/
def chainTxs : List CBlock → List (Tx Uint256 Unspent (ShieldedType × Uint256))
  | [] => []
  | block :: blocks =>
    (block.vtx.map (ledgerTx (blocks.length + 1 : Nat))).reverse ++ chainTxs blocks

section Transaction

variable {nHeight : Int} {before after : ViewState} {tx : CTransaction} {txundo : CTxUndo}
  {spent : CoinsMap}

/-- `UpdateCoins` applies the transaction to the ledger. -/
theorem Updates.ledger (updates : Updates nHeight before tx txundo spent after)
    : after.ledger = before.ledger.apply (ledgerTx nHeight tx) := by
  have left : ∀ txid n, spent.utxo txid n
      = if (txid, n) ∈ (ledgerTx nHeight tx).inputs then none else before.coins.utxo txid n := by
    intro txid n
    split
    next mem =>
      obtain ⟨txin, listed, same⟩ := List.mem_map.mp mem
      obtain ⟨rfl, rfl⟩ := Prod.mk.inj same
      exact (updates.spends.spent listed).2
    next other =>
      refine updates.spends.utxo_of_not_mem fun txin listed same => other ?_
      exact List.mem_map.mpr ⟨txin, listed, Prod.ext same.1.symm same.2.symm⟩
  refine Ledger.ext (funext fun txid => funext fun n => ?_) (Set.ext ?_)
  · exact (updates.utxo txid n).trans (by rw [left]; rfl)
  · rw [updates.outputs]
    rintro ⟨_ | _, nf⟩ <;>
      simp [ViewState.ledger, ViewState.pool, ViewState.setNullifiers,
        ShieldedState.setNullifiers, Ledger.apply, ledgerTx]

/-- What was checked of a transaction makes the ledger accept it. -/
theorem Updates.accepts (updates : Updates nHeight before tx txundo spent after)
    (checked : Checked tx) (sprout : ∀ nf ∈ tx.sproutNullifiers, nf ∉ before.sprout.nullifiers)
    (sapling : ∀ nf ∈ tx.saplingNullifiers, nf ∉ before.sapling.nullifiers)
    : before.ledger.Accepts (ledgerTx nHeight tx) where
  distinct := by
    have prevouts : ((spendingInputs tx).map CTxIn.prevout).Nodup := by
      unfold spendingInputs
      split
      · exact List.nodup_nil
      · exact checked.inputs
    have injective : Function.Injective fun prevout : COutPoint =>
        (prevout.hash, prevout.n.toNat) := by
      rintro ⟨hash, n⟩ ⟨hash', n'⟩ same
      obtain ⟨rfl, index⟩ := Prod.mk.inj same
      exact congrArg (COutPoint.mk hash) (UInt32.toNat_inj.mp index)
    have mapped := prevouts.map injective
    rwa [List.map_map] at mapped
  unspent := by
    intro input mem
    obtain ⟨txin, listed, rfl⟩ := List.mem_map.mp mem
    obtain ⟨⟨found, there⟩, _⟩ := updates.spends.spent listed
    exact Option.ne_none_iff_exists'.mpr ⟨found, there⟩
  distinctNullifiers := by
    refine List.nodup_append'.mpr ⟨checked.sprout.map (Prod.mk_right_injective _),
      checked.sapling.map (Prod.mk_right_injective _), ?_⟩
    intro nf first second
    obtain ⟨_, _, rfl⟩ := List.mem_map.mp first
    obtain ⟨_, _, other⟩ := List.mem_map.mp second
    cases other
  unrevealed := by
    intro nf mem revealed
    rcases List.mem_append.mp mem with first | second
    · obtain ⟨_, listed, rfl⟩ := List.mem_map.mp first
      exact sprout _ listed revealed
    · obtain ⟨_, listed, rfl⟩ := List.mem_map.mp second
      exact sapling _ listed revealed

end Transaction

section Block

variable {env : Environment} {hashes : Hashes} {chainparams : CChainParams}
  {pindex : CBlockIndex} {before after : ViewState}
  {start : Ledger Uint256 Unspent (ShieldedType × Uint256)}
  {txs : List (Tx Uint256 Unspent (ShieldedType × Uint256))}

theorem ConnectedTxs.ledger {vtx vtxundo nFees}
    (connected : ConnectedTxs env hashes chainparams pindex before vtx vtxundo nFees after)
    (checked : ∀ tx ∈ vtx, Checked tx) (valid : Valid start txs)
    (same : before.ledger = run start txs)
    : Valid start ((vtx.map (ledgerTx pindex.nHeight)).reverse ++ txs)
      ∧ after.ledger = run start ((vtx.map (ledgerTx pindex.nHeight)).reverse ++ txs) := by
  induction connected generalizing txs with
  | nil => exact ⟨valid, same⟩
  | cons first rest ih =>
    simp only [List.mem_cons, forall_eq_or_imp] at checked
    obtain ⟨_, updates⟩ := first.updates
    have accepts := updates.accepts checked.1 first.sprout first.sapling
    rw [same] at accepts
    rw [List.map_cons, List.reverse_cons, List.append_assoc]
    refine ih checked.2 (valid.cons accepts) ?_
    rw [updates.ledger, same]
    rfl

variable {block : CBlock} {blockundo : CBlockUndo} {coinbase : CTransaction}
  {vtx : List CTransaction} {middle last : ViewState} {nFees : CAmount}

section

variable (connected : ConnectedBlock env hashes chainparams pindex before block blockundo after
  coinbase vtx middle last nFees)
include connected

/-- Anchors are no part of the ledger. -/
theorem ConnectedBlock.ledger_last
    : after.ledger = last.ledger := by
  obtain ⟨sproutTree, sprout⟩ := connected.sprout
  obtain ⟨saplingTree, sapling, _⟩ := connected.sapling
  refine ViewState.ledger_eq_iff.mpr ⟨fun _ _ => by rw [connected.coins], ?_, ?_⟩
  · rw [sprout, ShieldedState.nullifiers_pushAnchor]
  · rw [sapling, ShieldedState.nullifiers_pushAnchor]

/-- A block that was connected extends the history by its transactions. -/
theorem ConnectedBlock.ledger (valid : Valid start txs) (same : before.ledger = run start txs)
    : Valid start ((block.vtx.map (ledgerTx pindex.nHeight)).reverse ++ txs)
      ∧ after.ledger
        = run start ((block.vtx.map (ledgerTx pindex.nHeight)).reverse ++ txs) := by
  have checked := connected.checked.checked
  rw [connected.checked.split, List.forall_mem_cons] at checked
  obtain ⟨noSprout, noSapling⟩ := connected.coinbase_nullifiers
  have accepts := connected.first.accepts checked.1 (by simp [noSprout]) (by simp [noSapling])
  rw [same] at accepts
  have first : middle.ledger = run start (ledgerTx pindex.nHeight coinbase :: txs) := by
    rw [connected.first.ledger, same]
    rfl
  rw [connected.checked.split, List.map_cons, List.reverse_cons, List.append_assoc,
    connected.ledger_last]
  exact connected.rest.ledger checked.2 (valid.cons accepts) first

end

/-- A view with the ledger of an earlier one can stand for it when blocks are undone. -/
theorem undone_of_ledger_eq {view earlier : ViewState} (same : view.ledger = earlier.ledger)
    (ignored : Uint256 → Prop)
    : Undone ignored view view earlier := by
  obtain ⟨coins, sprout, sapling⟩ := ViewState.ledger_eq_iff.mp same
  refine ⟨fun txid _ => coins txid, ?_, ?_⟩
  · rw [← sprout]
  · rw [← sapling]

end Block

end Resistance.Validation

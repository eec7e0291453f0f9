import Resistance.Validation.Connected

/-! `DisconnectBlock` of `main.cpp`, and what it restores. The address and spent indexes are
left out.
-/

namespace Resistance.Coins.CCoins

open Primitives

/-- `operator==`: empty `CCoins` objects are always equal. -/
def equal (a b : CCoins) : Bool :=
  a.isPruned && b.isPruned
  || a.fCoinBase == b.fCoinBase && a.nHeight == b.nHeight && a.nVersion == b.nVersion
    && a.vout == b.vout

end Resistance.Coins.CCoins

namespace Resistance.Validation

open Primitives Consensus Coins Chain Lib.Checks

inductive DisconnectResult where
  /-- All good. -/
  | ok
  /-- Rolled back, but UTXO set was inconsistent with block. -/
  | unclean
  /-- Something else went wrong. -/
  | failed
  deriving DecidableEq, Repr

structure DisconnectState where
  view : ViewState
  fClean : Bool := true

/-- Check that all outputs are available and match the outputs in the block itself exactly,
then remove them.
-/
def disconnectOutputs (tx : CTransaction) (nHeight : Int) (coins : CoinsMap)
    : CoinsMap × Bool :=
  let outs := (coins.getOrClear tx.getHash).clearUnspendable
  let outsBlock := CCoins.fromTx tx nHeight
  -- The CCoins serialization does not serialize negative numbers.
  let outs := if outsBlock.nVersion < 0 then { outs with nVersion := outsBlock.nVersion } else outs
  (coins.edit tx.getHash .clear, outs.equal outsBlock)

/-- Restore inputs; there is no undo data for the coinbase. -/
def disconnectInputs (tx : CTransaction) (txundo : Option CTxUndo) (coins : CoinsMap)
    : Except Failure (CoinsMap × Bool) :=
  match txundo with
  | none => pure (coins, true)
  | some txundo => do
    throwIf (txundo.vprevout.length ≠ tx.vin.length)
      (.error "DisconnectBlock(): transaction and undo data inconsistent")
    return applyTxUndo (tx.vin.zip txundo.vprevout) coins

def disconnectTx (nHeight : Int) (tx : CTransaction) (txundo : Option CTxUndo)
    (s : DisconnectState) : Except Failure DisconnectState := do
  let (coins, outputsClean) := disconnectOutputs tx nHeight s.view.coins
  let (coins, inputsClean) ← disconnectInputs tx txundo coins
  return {
    view := { s.view.setNullifiers tx false with coins }
    fClean := s.fClean && outputsClean && inputsClean }

/-- Undo transactions in reverse order. -/
def disconnectTxs (nHeight : Int)
    : List (CTransaction × Option CTxUndo) → DisconnectState → Except Failure DisconnectState
  | [], s => pure s
  | (tx, txundo) :: vtx, s => do
    let s ← disconnectTxs nHeight vtx s
    disconnectTx nHeight tx txundo s

section Disconnect

variable (hashes : Hashes) (chainparams : CChainParams)

/-- The Sapling anchor after a block: only reliable in its header if Sapling was active. -/
def finalSaplingRoot (pindex : CBlockIndex) : Uint256 :=
  if chainparams.consensus.networkUpgradeActive pindex.nHeight .sapling then
    pindex.hashFinalSaplingRoot
  else hashes.sapling.emptyRoot saplingTreeDepth

/-- `DisconnectBlock` up to its result: the view, and whether it was clean. -/
def disconnectView (block : CBlock) (pindex : CBlockIndex) (view : ViewState)
    (undo : Option CBlockUndo) : Except Failure (ViewState × Bool) := do
  throwIf (pindex.hash ≠ view.hashBlock)
    (.assertion "pindex->GetBlockHash() == view.GetBestBlock()")
  match undo, pindex.pprev with
  | none, _ => .error (.error "DisconnectBlock(): no undo data available")
  | some _, none => .error .undefined
  | some blockUndo, some pprev => do
    throwIf (blockUndo.vtxundo.length + 1 ≠ block.vtx.length)
      (.error "DisconnectBlock(): block and undo data inconsistent")
    let s ← disconnectTxs pindex.nHeight
      (block.vtx.zip (none :: blockUndo.vtxundo.map some)) { view }
    -- set the old best anchors back
    let sprout ← s.view.sprout.popAnchor blockUndo.oldSproutTreeRoot
    let sapling ← s.view.sapling.popAnchor (finalSaplingRoot hashes chainparams pprev)
    return ({ s.view with sprout, sapling, hashBlock := pprev.hash }, s.fClean)

/-- `DisconnectBlock`, with the undo data of the block if there is any. -/
def disconnectBlock (block : CBlock) (pindex : CBlockIndex) (view : ViewState)
    (undo : Option CBlockUndo) : Except Failure (DisconnectResult × ViewState) :=
  match disconnectView hashes chainparams block pindex view undo with
  | .ok (view, fClean) => pure (if fClean then .ok else .unclean, view)
  | .error (.error _) => pure (.failed, view)
  | .error failure => .error failure

end Disconnect

/-- When `DisconnectBlock` comes to its end. -/
theorem disconnectView_ok {hashes chainparams block pindex prev view restored blockUndo fClean}
    (parent : pindex.pprev = some prev)
    : disconnectView hashes chainparams block pindex view (some blockUndo)
        = .ok (restored, fClean)
      ↔ pindex.hash = view.hashBlock ∧ blockUndo.vtxundo.length + 1 = block.vtx.length
        ∧ ∃ s sprout sapling, disconnectTxs pindex.nHeight
            (block.vtx.zip (none :: blockUndo.vtxundo.map some)) { view } = .ok s
          ∧ s.view.sprout.popAnchor blockUndo.oldSproutTreeRoot = .ok sprout
          ∧ s.view.sapling.popAnchor (finalSaplingRoot hashes chainparams prev) = .ok sapling
          ∧ restored = { s.view with sprout, sapling, hashBlock := prev.hash }
          ∧ fClean = s.fClean := by
  simp only [disconnectView, parent, bind_ok, throwIf_ok, not_not, pure_ok, Prod.mk.injEq]
  constructor
  · rintro ⟨_, hash, _, length, s, run, sprout, popSprout, sapling, popSapling, rfl, rfl⟩
    exact ⟨hash, length, s, sprout, sapling, run, popSprout, popSapling, rfl, rfl⟩
  · rintro ⟨hash, length, s, sprout, sapling, run, popSprout, popSapling, rfl, rfl⟩
    exact ⟨(), hash, (), length, s, run, sprout, popSprout, sapling, popSapling, rfl, rfl⟩

/-- The view agrees with an earlier one, except for ignored transactions and for the anchors,
which are still those of the view from which blocks are undone.
-/
structure Undone (ignored : Uint256 → Prop) (start : ViewState) (view earlier : ViewState)
    : Prop where
  coins : AgreeOff ignored view.coins earlier.coins
  sprout : view.sprout = { start.sprout with nullifiers := earlier.sprout.nullifiers }
  sapling : view.sapling = { start.sapling with nullifiers := earlier.sapling.nullifiers }

/-- No inconsistency was found, and coins in their normal form stay so. -/
structure Cleanly (s next : DisconnectState) : Prop where
  fClean : next.fClean = s.fClean
  tidy : ∀ txid, s.view.coins.TidyAt txid → next.view.coins.TidyAt txid

variable {tx : CTransaction}

/-- Outputs that are as the transaction created them match it. -/
theorem disconnectOutputs_clean {nHeight coins} (tidy : coins.TidyAt tx.getHash)
    (outputs : ∀ txout ∈ tx.vout, txout.isNull = false)
    (same : ∀ n, coins.utxo tx.getHash n = (CCoins.fromTx tx nHeight).unspent n)
    : (disconnectOutputs tx nHeight coins).2 = true := by
  obtain ⟨clean, blank⟩ := tidy.getOrClear
  have same : ∀ n, (coins.getOrClear tx.getHash).unspent n
      = (CCoins.fromTx tx nHeight).unspent n := fun n => by
    rw [CoinsMap.unspent_getOrClear, same]
  cases pruned : (coins.getOrClear tx.getHash).isPruned with
  | true =>
    have created : (CCoins.fromTx tx nHeight).isPruned = true :=
      CCoins.isPruned_iff.mpr fun n => by rw [← same, CCoins.isPruned_iff.mp pruned]
    have cleared : (coins.getOrClear tx.getHash).clearUnspendable.isPruned = true := by
      simp [CCoins.clearUnspendable, CCoins.isPruned, CCoins.cleanup,
        clean.vout_eq_nil_iff.mpr pruned]
    simp only [disconnectOutputs, CCoins.equal, created, Bool.and_true, Bool.or_eq_true]
    refine .inl ?_
    split
    · exact cleared
    · exact cleared
  | false =>
    have created : (CCoins.fromTx tx nHeight).Clean := CCoins.clean_cleanup _
    have asCreated := CCoins.eq_of_unspent clean created blank
      (CCoins.blank_fromTx nHeight outputs) same pruned
    have idem : (CCoins.fromTx tx nHeight).clearUnspendable = CCoins.fromTx tx nHeight :=
      CCoins.clearUnspendable_idem _
    simp only [disconnectOutputs, asCreated, idem, ite_self, CCoins.equal, beq_self_eq_true,
      Bool.and_self, Bool.or_true]

/-- The undo data restores the inputs of the transaction. -/
def UndoData (tx : CTransaction) (vprevout : List CTxInUndo) (txundo : Option CTxUndo) : Prop :=
  ∀ coins, disconnectInputs tx txundo coins
    = .ok (applyTxUndo ((spendingInputs tx).zip vprevout) coins)

theorem undoData_coinbase (coinbase : tx.isCoinBase = true)
    : UndoData tx [] none := by
  intro coins
  rw [spendingInputs, if_pos coinbase]
  rfl

section Undo

variable {ignored : Uint256 → Prop} {nHeight : Int} {before after start : ViewState}
  {spent : CoinsMap} {tx : CTransaction} {txundo : CTxUndo}

section

variable (updates : Updates nHeight before tx txundo spent after)
include updates

theorem Updates.undoData (ordinary : tx.isCoinBase = false)
    : UndoData tx txundo.vprevout (some txundo) := by
  intro coins
  have inputs : spendingInputs tx = tx.vin := by rw [spendingInputs, ordinary]; rfl
  have size := updates.spends.length_eq
  rw [inputs] at size ⊢
  simp [disconnectInputs, throwIf, size]

theorem Updates.aged (aged : Aged before.coins) (pos : nHeight ≠ 0)
    : Aged after.coins := by
  intro txid n found there
  rw [updates.utxo] at there
  split at there
  · obtain ⟨_, _, _, height, _⟩ := CCoins.unspent_eq_some_iff.mp there
    rw [← height]
    exact pos
  · exact aged txid n found (updates.spends.utxo_of_utxo there)

variable {txid : Uint256} {data : Option CTxUndo} {s : DisconnectState}

/-- A transaction without unspent outputs stays so while others are connected. -/
theorem Updates.utxo_eq_none (other : txid ≠ tx.getHash)
    (free : ∀ n, before.coins.utxo txid n = none) (n : Nat)
    : after.coins.utxo txid n = none := by
  rw [updates.utxo, if_neg other]
  exact updates.spends.utxo_eq_none (free n)

/-- Undoing a transaction gives the view before it. -/
theorem Updates.undo (undoData : UndoData tx txundo.vprevout data) (aged : Aged before.coins)
    (sprout : ∀ nf ∈ tx.sproutNullifiers, nf ∉ before.sprout.nullifiers)
    (sapling : ∀ nf ∈ tx.saplingNullifiers, nf ∉ before.sapling.nullifiers)
    (unused : ¬ ignored tx.getHash → ∀ n, before.coins.utxo tx.getHash n = none)
    (undone : Undone ignored start s.view after)
    : ∃ next, disconnectTx nHeight tx data s = .ok next
      ∧ Undone ignored start next.view before
      ∧ ((∀ txid, ¬ ignored txid) → (∀ txout ∈ tx.vout, txout.isNull = false) →
        s.view.coins.TidyAt tx.getHash → Cleanly s next) := by
  have removed : AgreeOff ignored (disconnectOutputs tx nHeight s.view.coins).1 spent := by
    intro txid regarded n
    rw [disconnectOutputs, CoinsMap.utxo_edit]
    split
    next same =>
      subst same
      exact (updates.spends.utxo_eq_none (unused regarded n)).symm
    · next other => rw [undone.coins txid regarded, updates.utxo, if_neg other]
  obtain ⟨restores, inputsClean⟩ := updates.spends.restore aged removed
  refine ⟨_, bind_ok.mpr ⟨_, undoData _, rfl⟩, ⟨restores.agree, ?_, ?_⟩, ?_⟩
  · change s.view.sprout.setNullifiers tx.sproutNullifiers false = _
    rw [undone.sprout, updates.outputs]
    exact congrArg (fun pool => { start.sprout with nullifiers := pool.nullifiers })
      (ShieldedState.unset_set_nullifiers sprout)
  · change s.view.sapling.setNullifiers tx.saplingNullifiers false = _
    rw [undone.sapling, updates.outputs]
    exact congrArg (fun pool => { start.sapling with nullifiers := pool.nullifiers })
      (ShieldedState.unset_set_nullifiers sapling)
  · intro regarded outputs tidy
    have outputsClean := disconnectOutputs_clean tidy outputs fun n => by
      rw [undone.coins _ (regarded _), updates.utxo, if_pos rfl]
    refine ⟨?_, fun txid fine => restores.tidy txid (fine.edit fun _ => nofun)⟩
    change (s.fClean && (disconnectOutputs tx nHeight s.view.coins).2
      && (applyTxUndo _ (disconnectOutputs tx nHeight s.view.coins).1).2) = s.fClean
    rw [outputsClean, inputsClean fun _ _ => regarded _, Bool.and_true, Bool.and_true]

/-- Undoing a transaction leaves ids without unspent outputs that had none before it. -/
theorem Updates.undo_empty (undoData : UndoData tx txundo.vprevout data)
    (free : ∀ n, before.coins.utxo txid n = none) {next}
    (run : disconnectTx nHeight tx data s = .ok next)
    (gone : txid = tx.getHash ∨ ∀ n, s.view.coins.utxo txid n = none) (n : Nat)
    : next.view.coins.utxo txid n = none := by
  have other : ∀ input ∈ (spendingInputs tx).zip txundo.vprevout,
      txid ≠ input.1.prevout.hash := by
    rintro ⟨txin, undo⟩ mem rfl
    obtain ⟨⟨found, there⟩, _⟩ := updates.spends.spent (List.of_mem_zip mem).1
    rw [free] at there
    cases there
  obtain ⟨result, inputs, done⟩ := bind_ok.mp run
  rw [undoData] at inputs
  obtain rfl := Except.ok.inj inputs
  obtain rfl := pure_ok.mp done
  change (applyTxUndo _ (disconnectOutputs tx nHeight s.view.coins).1).1.utxo txid n = none
  rw [utxo_applyTxUndo_ne other, disconnectOutputs, CoinsMap.utxo_edit]
  split
  · exact CCoins.unspent_clear n
  · next differs => exact gone.resolve_left differs n

end

end Undo

section Block

variable {env : Environment} {hashes : Hashes} {chainparams : CChainParams}
  {pindex : CBlockIndex} {ignored : Uint256 → Prop} {before after start : ViewState}

/-- Transactions that are not ignored have ids of their own. -/
def Distinct (ignored : Uint256 → Prop) (vtx : List CTransaction) : Prop :=
  vtx.Pairwise fun earlier later =>
    ¬ ignored later.getHash → later.getHash ≠ earlier.getHash

/-- The outputs of the transactions are in their normal form. -/
def CleanOutputs (view : ViewState) (vtx : List CTransaction) : Prop :=
  ∀ tx ∈ vtx, (∀ txout ∈ tx.vout, txout.isNull = false) ∧ view.coins.TidyAt tx.getHash

theorem Cleanly.trans {s middle next} (first : Cleanly s middle) (second : Cleanly middle next)
    : Cleanly s next :=
  ⟨second.fClean.trans first.fClean, fun txid tidy => second.tidy txid (first.tidy txid tidy)⟩

section

variable {vtx : List CTransaction} {vtxundo : List CTxUndo} {nFees : CAmount}
  (connected : ConnectedTxs env hashes chainparams pindex before vtx vtxundo nFees after)
include connected

variable {s : DisconnectState}

/-- Undoing the transactions after the coinbase gives the view before them. -/
theorem ConnectedTxs.undo (pos : pindex.nHeight ≠ 0) (aged : Aged before.coins)
    (ordinary : ∀ tx ∈ vtx, tx.isCoinBase = false) (distinct : Distinct ignored vtx)
    (unused : ∀ tx ∈ vtx, ¬ ignored tx.getHash → ∀ n, before.coins.utxo tx.getHash n = none)
    (undone : Undone ignored start s.view after)
    : ∃ next, disconnectTxs pindex.nHeight (vtx.zip (vtxundo.map some)) s = .ok next
      ∧ Undone ignored start next.view before
      ∧ ((∀ txid, ¬ ignored txid) → CleanOutputs s.view vtx → Cleanly s next) := by
  induction connected with
  | nil => exact ⟨s, rfl, undone, fun _ _ => ⟨rfl, fun _ tidy => tidy⟩⟩
  | cons first rest ih =>
    obtain ⟨spent, updates⟩ := first.updates
    simp only [List.mem_cons, forall_eq_or_imp] at ordinary unused
    obtain ⟨fromFirst, distinctRest⟩ := List.pairwise_cons.mp distinct
    obtain ⟨middle, run, undoneRest, cleanRest⟩ := ih (updates.aged aged pos) ordinary.2
      distinctRest
      (fun tx mem regarded => updates.utxo_eq_none (fromFirst tx mem regarded)
        (unused.2 tx mem regarded)) undone
    obtain ⟨next, undoFirst, undoneFirst, cleanFirst⟩ := updates.undo
      (updates.undoData ordinary.1) aged first.sprout first.sapling unused.1 undoneRest
    refine ⟨next, bind_ok.mpr ⟨middle, run, undoFirst⟩, undoneFirst, fun regarded outputs => ?_⟩
    have rest := cleanRest regarded fun tx mem => outputs tx (List.mem_cons_of_mem _ mem)
    obtain ⟨notNull, tidy⟩ := outputs _ List.mem_cons_self
    exact rest.trans (cleanFirst regarded notNull (rest.tidy _ tidy))

/-- Of ids without unspent outputs, undoing the transactions removes what these created. -/
theorem ConnectedTxs.undo_empty (ordinary : ∀ tx ∈ vtx, tx.isCoinBase = false) {txid}
    (free : ∀ n, before.coins.utxo txid n = none) {next}
    (run : disconnectTxs pindex.nHeight (vtx.zip (vtxundo.map some)) s = .ok next)
    (gone : (∃ tx ∈ vtx, txid = tx.getHash) ∨ ∀ n, s.view.coins.utxo txid n = none) (n : Nat)
    : next.view.coins.utxo txid n = none := by
  induction connected generalizing next n with
  | nil =>
    cases run
    rcases gone with ⟨_, mem, _⟩ | none
    · cases mem
    · exact none n
  | @cons before middle after tx vtx txundo vtxundo nTxFee nFees first rest ih =>
    obtain ⟨spent, updates⟩ := first.updates
    simp only [List.mem_cons, forall_eq_or_imp, exists_eq_or_imp] at ordinary gone
    obtain ⟨undone, undoRest, undoFirst⟩ := bind_ok.mp run
    refine updates.undo_empty (updates.undoData ordinary.1) free undoFirst ?_ n
    by_cases here : txid = tx.getHash
    · exact .inl here
    have later : (∃ tx ∈ vtx, txid = tx.getHash) ∨ ∀ n, s.view.coins.utxo txid n = none := by
      rcases gone with (same | below) | none
      · exact absurd same here
      · exact .inl below
      · exact .inr none
    exact .inr (ih ordinary.2 (updates.utxo_eq_none here free) undoRest later)

end

variable {block : CBlock} {blockundo : CBlockUndo} {coinbase : CTransaction}
  {vtx : List CTransaction} {middle last : ViewState} {nFees : CAmount}

section

variable (connected : ConnectedBlock env hashes chainparams pindex before block blockundo after
  coinbase vtx middle last nFees)
include connected

/-- A coinbase reveals no nullifiers. -/
theorem ConnectedBlock.coinbase_nullifiers
    : coinbase.sproutNullifiers = [] ∧ coinbase.saplingNullifiers = [] := by
  have mem : coinbase ∈ block.vtx := by
    rw [connected.checked.split]
    exact List.mem_cons_self
  obtain ⟨joinsplits, spends, _⟩ :=
    (connected.checked.checked coinbase mem).coinbase connected.checked.coinbase
  simp [CTransaction.sproutNullifiers, CTransaction.saplingNullifiers, joinsplits, spends]

variable {s : DisconnectState}

/-- Undoing all transactions of a block gives the view before it. -/
theorem ConnectedBlock.undo (pos : pindex.nHeight ≠ 0) (aged : Aged before.coins)
    (distinct : Distinct ignored block.vtx) (undone : Undone ignored start s.view last)
    : ∃ next, disconnectTxs pindex.nHeight
        (block.vtx.zip (none :: blockundo.vtxundo.map some)) s = .ok next
      ∧ Undone ignored start next.view before
      ∧ ((∀ txid, ¬ ignored txid) → CleanOutputs s.view block.vtx → Cleanly s next) := by
  have unused := connected.unused
  rw [connected.checked.split] at distinct unused ⊢
  simp only [List.mem_cons, forall_eq_or_imp] at unused
  obtain ⟨fromFirst, distinctRest⟩ := List.pairwise_cons.mp distinct
  obtain ⟨second, run, undoneRest, cleanRest⟩ := connected.rest.undo pos
    (connected.first.aged aged pos) connected.checked.ordinary distinctRest
    (fun tx mem regarded => connected.first.utxo_eq_none (fromFirst tx mem regarded)
      (unused.2 tx mem)) undone
  obtain ⟨noSprout, noSapling⟩ := connected.coinbase_nullifiers
  obtain ⟨next, undoFirst, undoneFirst, cleanFirst⟩ := connected.first.undo
    (undoData_coinbase connected.checked.coinbase) aged (by simp [noSprout])
    (by simp [noSapling]) (fun _ => unused.1) undoneRest
  refine ⟨next, bind_ok.mpr ⟨second, run, undoFirst⟩, undoneFirst, fun regarded outputs => ?_⟩
  have rest := cleanRest regarded fun tx mem => outputs tx (List.mem_cons_of_mem _ mem)
  obtain ⟨notNull, tidy⟩ := outputs _ List.mem_cons_self
  exact rest.trans (cleanFirst regarded notNull (rest.tidy _ tidy))

/-- Whatever ids the transactions of a block have, undoing them gives the unspent outputs and
the nullifiers before it.
-/
theorem ConnectedBlock.undo_all (pos : pindex.nHeight ≠ 0) (aged : Aged before.coins) {next}
    (undone : Undone (fun _ => False) start s.view last)
    (run : disconnectTxs pindex.nHeight (block.vtx.zip (none :: blockundo.vtxundo.map some)) s
      = .ok next)
    : Undone (fun _ => False) start next.view before := by
  let own : Uint256 → Prop := fun txid => ∃ tx ∈ block.vtx, txid = tx.getHash
  have distinct : Distinct own block.vtx :=
    List.pairwise_of_forall_mem_list fun _ _ later mem regarded =>
      absurd ⟨later, mem, rfl⟩ regarded
  have undoneOff : Undone own start s.view last :=
    ⟨fun txid _ => undone.coins txid not_false, undone.sprout, undone.sapling⟩
  obtain ⟨again, sameRun, restored, _⟩ := connected.undo pos aged distinct undoneOff
  obtain rfl := Except.ok.inj (sameRun.symm.trans run)
  refine ⟨fun txid _ n => ?_, restored.sprout, restored.sapling⟩
  by_cases known : own txid
  · obtain ⟨tx, mem, rfl⟩ := known
    have free := connected.unused tx mem
    rw [free]
    rw [connected.checked.split] at run mem
    obtain ⟨second, undoRest, undoFirst⟩ := bind_ok.mp run
    refine connected.first.undo_empty (undoData_coinbase connected.checked.coinbase) free
      undoFirst ?_ n
    by_cases first : tx.getHash = coinbase.getHash
    · exact .inl first
    refine .inr (connected.rest.undo_empty connected.checked.ordinary
      (connected.first.utxo_eq_none first free) undoRest (.inl ?_))
    rcases List.mem_cons.mp mem with rfl | below
    · exact absurd rfl first
    · exact ⟨tx, below, rfl⟩
  · exact restored.coins txid known n

end

end Block

end Resistance.Validation

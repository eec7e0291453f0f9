import Resistance.Coins.Utxo
import Resistance.Consensus.Amount
import Resistance.Consensus.Validation
import Resistance.Zcash.IncrementalMerkleTree

/-! What a `CCoinsViewCache` says, without its caches: the coins, the nullifiers and anchors
of both shielded pools and the best block, with the queries and updates of `coins.cpp` that
validation makes.
-/

namespace Resistance.Coins

open Primitives Consensus Zcash Lib Lib.Checks List

/-- `SproutMerkleTree` and `SaplingMerkleTree`; their depths and hashes are arguments of the
operations.
-/
abbrev MerkleTree := IncrementalMerkleTree Uint256

/-- What a view says of one shielded pool. -/
structure ShieldedState where
  nullifiers : Finset Uint256
  anchors : FiniteMap Uint256 MerkleTree
  hashAnchor : Uint256

namespace ShieldedState

variable (ops : MerkleHash Uint256) (depth : Nat)

/-- A pool without notes: the root of the empty tree is its anchor. -/
def empty : ShieldedState where
  nullifiers := ∅
  anchors := AList.singleton (ops.emptyRoot depth) {}
  hashAnchor := ops.emptyRoot depth

variable (pool : ShieldedState)

def getNullifier (nullifier : Uint256) : Bool := nullifier ∈ pool.nullifiers

def getAnchorAt (rt : Uint256) : Option MerkleTree := pool.anchors.lookup rt

/-- `SetNullifiers`, for the nullifiers that a transaction reveals in this pool. -/
def setNullifiers (revealed : List Uint256) (spent : Bool) : ShieldedState :=
  { pool with nullifiers :=
      if spent then pool.nullifiers ∪ revealed.toFinset
      else pool.nullifiers \ revealed.toFinset }

def pushAnchor (tree : MerkleTree) : ShieldedState :=
  let newrt := tree.root ops depth
  -- We don't want to overwrite an anchor we already have.
  if pool.hashAnchor ≠ newrt then
    { pool with anchors := pool.anchors.insert newrt tree, hashAnchor := newrt }
  else pool

def popAnchor (newrt : Uint256) : Except Failure ShieldedState :=
  if pool.hashAnchor ≠ newrt then do
    throwIf (pool.getAnchorAt pool.hashAnchor).isNone
      (.assertion "GetAnchorAt(currentRoot, tree)")
    return { pool with anchors := pool.anchors.erase pool.hashAnchor, hashAnchor := newrt }
  else pure pool

/-- The joinsplit loop of `HaveShieldedRequirements`, with the trees that earlier joinsplits
of the transaction made.
-/
def haveJoinSplits : FiniteMap Uint256 MerkleTree → List JSDescription → Except Failure Bool
  | _, [] => pure true
  | intermediates, joinsplit :: vJoinSplit =>
    -- If the nullifier is set, this transaction double-spends!
    if joinsplit.nullifiers.toList.any pool.getNullifier then pure false
    else
      match (intermediates.lookup joinsplit.anchor).or (pool.getAnchorAt joinsplit.anchor) with
      | none => pure false
      | some tree => do
        let tree ← (joinsplit.commitments.toList.foldlM
          (IncrementalMerkleTree.append ops depth) tree).mapError .exception
        let root := tree.root ops depth
        haveJoinSplits
          (if (intermediates.lookup root).isSome then intermediates
            else intermediates.insert root tree)
          vJoinSplit

/-- The shielded spends of `HaveShieldedRequirements`. -/
def haveSpends (vShieldedSpend : List SpendDescription) : Bool :=
  vShieldedSpend.all fun spend =>
    ! pool.getNullifier spend.nullifier && (pool.getAnchorAt spend.anchor).isSome

variable {pool ops depth}

/-- Requirements are met only if no nullifier of the joinsplits is set. -/
theorem haveJoinSplits_fresh {vJoinSplit intermediates}
    (met : pool.haveJoinSplits ops depth intermediates vJoinSplit = .ok true)
    : ∀ nf ∈ vJoinSplit.flatMap fun joinsplit => joinsplit.nullifiers.toList,
        nf ∉ pool.nullifiers := by
  induction vJoinSplit generalizing intermediates with
  | nil => nofun
  | cons joinsplit vJoinSplit ih =>
    unfold haveJoinSplits at met
    split at met
    · cases met
    next unset =>
      split at met
      · cases met
      obtain ⟨tree, _, later⟩ := bind_ok.mp met
      intro nf mem
      rw [flatMap_cons, mem_append] at mem
      rcases mem with here | below
      · simp only [getNullifier, any_eq_true, decide_eq_true_eq, not_exists, not_and] at unset
        exact unset nf here
      · exact ih later nf below

theorem haveSpends_fresh {vShieldedSpend} (met : pool.haveSpends vShieldedSpend = true)
    : ∀ nf ∈ vShieldedSpend.map SpendDescription.nullifier, nf ∉ pool.nullifiers := by
  simp only [haveSpends, getNullifier, all_eq_true, Bool.and_eq_true, Bool.not_eq_true',
    decide_eq_false_iff_not] at met
  exact forall_mem_map.mpr fun spend listed => (met spend listed).1

/-- Nullifiers that were not set are unset again after they were spent and unspent. -/
theorem unset_set_nullifiers {revealed} (fresh : ∀ nf ∈ revealed, nf ∉ pool.nullifiers)
    : (pool.setNullifiers revealed true).setNullifiers revealed false = pool := by
  simp only [setNullifiers, if_true, Bool.false_eq_true, if_false]
  rw [Finset.union_sdiff_right, Finset.sdiff_eq_self_iff_disjoint.mpr]
  exact Finset.disjoint_left.mpr fun nf set listed => fresh nf (mem_toFinset.mp listed) set

/-- Popping an anchor after a push sets the old one back. -/
theorem popAnchor_pushAnchor (ops : MerkleHash Uint256) (depth : Nat) (pool : ShieldedState)
    (tree : MerkleTree) (nullifiers : Finset Uint256)
    : ∃ popped, { pool.pushAnchor ops depth tree with nullifiers }.popAnchor pool.hashAnchor
        = .ok popped
      ∧ popped.hashAnchor = pool.hashAnchor ∧ popped.nullifiers = nullifiers := by
  by_cases same : pool.hashAnchor = tree.root ops depth
  · refine ⟨{ pool with nullifiers }, ?_, rfl, rfl⟩
    simp only [pushAnchor, popAnchor, same, ne_eq, not_true, if_false]
    rfl
  have pushed : (pool.pushAnchor ops depth tree).getAnchorAt
      (pool.pushAnchor ops depth tree).hashAnchor = some tree := by
    simp only [pushAnchor, ne_eq, same]
    exact AList.lookup_insert pool.anchors
  have differs : (pool.pushAnchor ops depth tree).hashAnchor ≠ pool.hashAnchor := by
    simpa [pushAnchor, same] using Ne.symm same
  refine ⟨_, (if_pos differs).trans (bind_ok.mpr ⟨(), ?_, rfl⟩), rfl, rfl⟩
  rw [throwIf_ok]
  change ¬ ((pool.pushAnchor ops depth tree).getAnchorAt _).isNone = true
  rw [pushed]
  exact Bool.false_ne_true

theorem nullifiers_popAnchor {popped newrt} (run : pool.popAnchor newrt = .ok popped)
    : popped.nullifiers = pool.nullifiers := by
  unfold popAnchor at run
  split at run
  · simp only [bind_ok, pure_ok] at run
    obtain ⟨_, _, rfl⟩ := run
    rfl
  · cases run
    rfl

@[simp] theorem nullifiers_pushAnchor (tree : MerkleTree)
    : (pool.pushAnchor ops depth tree).nullifiers = pool.nullifiers := by
  simp only [pushAnchor]
  split <;> rfl

end ShieldedState

inductive ShieldedType where
  | sprout
  | sapling
  deriving DecidableEq

structure ViewState where
  coins : CoinsMap
  sprout : ShieldedState
  sapling : ShieldedState
  hashBlock : Uint256

namespace ViewState

def pool (view : ViewState) : ShieldedType → ShieldedState
  | .sprout => view.sprout
  | .sapling => view.sapling

variable (view : ViewState) (tx : CTransaction)

def haveInputs : Bool :=
  tx.isCoinBase || tx.vin.all fun txin =>
    (view.coins.lookup txin.prevout.hash).any (·.isAvailable txin.prevout.n)

def haveShieldedRequirements (ops : MerkleHash Uint256) (depth : Nat)
    : Except Failure Bool := do
  let joinsplits ← view.sprout.haveJoinSplits ops depth ∅ tx.vJoinSplit
  return joinsplits && view.sapling.haveSpends tx.vShieldedSpend

def getOutputFor (input : CTxIn) : Except Failure CTxOut :=
  match (view.coins.utxo input.prevout.hash input.prevout.n.toNat) with
  | some found => pure found.txout
  | none => .error (.assertion "coins && coins->IsAvailable(input.prevout.n)")

def getValueIn : Except Failure CAmount :=
  if tx.isCoinBase then pure 0
  else do
    let nResult ← tx.vin.foldlM (fun nResult txin => do
      return nResult + (← view.getOutputFor txin).nValue) 0
    return nResult + (← tx.getShieldedValueIn.mapError .exception)

def setNullifiers (spent : Bool) : ViewState :=
  { view with
    sprout := view.sprout.setNullifiers tx.sproutNullifiers spent
    sapling := view.sapling.setNullifiers tx.saplingNullifiers spent }

variable {view tx}

/-- The inputs are there exactly if each of them is an unspent output. -/
theorem utxo_of_haveInputs (have' : view.haveInputs tx = true) (ordinary : tx.isCoinBase = false)
    : ∀ txin ∈ tx.vin,
        (view.coins.utxo txin.prevout.hash txin.prevout.n.toNat).isSome = true := by
  simp only [haveInputs, ordinary, Bool.false_or, all_eq_true] at have'
  intro txin mem
  have available := have' txin mem
  rw [CoinsMap.utxo]
  cases found : view.coins.lookup txin.prevout.hash with
  | none =>
    rw [found] at available
    cases available
  | some coins =>
    rw [found] at available
    exact CCoins.isAvailable_iff.mp available

end ViewState

end Resistance.Coins

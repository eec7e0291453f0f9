import Resistance.Consensus.Amount
import Resistance.Primitives.WireFormat

/-! `CBlockIndex` of `chain.h`, as far as validation reads it, with what `AddToBlockIndex` and
`ReceivedBlockTransactions` of `main.cpp` store in it.
-/

namespace Resistance.Chain

open Primitives Lib Int64

structure CBlockIndex where
  /-- `*phashBlock`. -/
  hash : Uint256
  pprev : Option CBlockIndex
  hashFinalSaplingRoot : Uint256
  nChainSproutValue : Option CAmount
  nChainSaplingValue : Option CAmount

/-- `nHeight`, which `AddToBlockIndex` counts from the block without a predecessor. -/
def CBlockIndex.nHeight : CBlockIndex → Int
  | ⟨_, none, _, _, _⟩ => 0
  | ⟨_, some pprev, _, _, _⟩ => pprev.nHeight + 1

theorem CBlockIndex.nHeight_nonneg : ∀ pindex : CBlockIndex, 0 ≤ pindex.nHeight
  | ⟨_, none, _, _, _⟩ => Int.le_refl 0
  | ⟨_, some pprev, _, _, _⟩ => Int.add_nonneg pprev.nHeight_nonneg Int.one_nonneg

theorem CBlockIndex.nHeight_of_pprev {pindex prev : CBlockIndex} (parent : pindex.pprev = some prev)
    : pindex.nHeight = prev.nHeight + 1 := by
  obtain ⟨_, _, _, _, _⟩ := pindex
  cases parent
  rfl

/-- `nSproutValue`: what the joinsplits of a block move into the Sprout pool. -/
def sproutValue (block : CBlock) : CAmount :=
  block.vtx.foldl (fun value tx =>
    tx.vJoinSplit.foldl (fun value js => value + js.vpubOld - js.vpubNew) value) 0

/-- `nSaplingValue`: negative valueBalance takes money from the transparent value pool and
adds it to the Sapling pool.
-/
def saplingValue (block : CBlock) : CAmount :=
  block.vtx.foldl (fun value tx => value + -tx.valueBalance) 0

/-- The value of a pool after a block, if it is known after the block before it. -/
def chainValue (pprev : Option CBlockIndex) (before : CBlockIndex → Option CAmount)
    (value : CAmount) : Option CAmount :=
  match pprev with
  | some prev => (before prev).map (· + value)
  | none => some value

/-- The index entry of a block whose predecessors have all been received. -/
def addToBlockIndex (hash : Bytes → Uint256) (block : CBlock) (pprev : Option CBlockIndex)
    : CBlockIndex where
  hash := block.getHash hash
  pprev
  hashFinalSaplingRoot := block.hashFinalSaplingRoot
  nChainSproutValue := chainValue pprev CBlockIndex.nChainSproutValue (sproutValue block)
  nChainSaplingValue := chainValue pprev CBlockIndex.nChainSaplingValue (saplingValue block)

/-- The index entry of the last block of a chain, whose blocks are listed from the last one
back to the genesis block.
-/
def chainIndex (hash : Bytes → Uint256) : List CBlock → Option CBlockIndex
  | [] => none
  | block :: chain => some (addToBlockIndex hash block (chainIndex hash chain))

theorem nHeight_addToBlockIndex (hash : Bytes → Uint256) (block : CBlock) (chain : List CBlock)
    : (addToBlockIndex hash block (chainIndex hash chain)).nHeight = chain.length := by
  induction chain generalizing block with
  | nil => rfl
  | cons parent chain ih =>
    rw [CBlockIndex.nHeight_of_pprev rfl, ih]
    rfl

/-- The index entry of a block on top of the blocks after the genesis block. -/
def indexOn (hash : Bytes → Uint256) (genesis : CBlock) (blocks : List CBlock) (block : CBlock)
    : CBlockIndex :=
  addToBlockIndex hash block (chainIndex hash (blocks ++ [genesis]))

section

variable (hash : Bytes → Uint256) (genesis : CBlock) (blocks : List CBlock) (block : CBlock)
include hash genesis blocks block

theorem nHeight_indexOn
    : (indexOn hash genesis blocks block).nHeight = (blocks.length + 1 : Nat) := by
  rw [indexOn, nHeight_addToBlockIndex, List.length_append, List.length_singleton]

end

-- What the pools get from a block, and what they hold after a chain of blocks.
def intoSprout (block : CBlock) : Int := (block.vtx.map CTransaction.intoSprout).sum
def intoSapling (block : CBlock) : Int := (block.vtx.map CTransaction.intoSapling).sum
def sproutPool (chain : List CBlock) : Int := (chain.map intoSprout).sum
def saplingPool (chain : List CBlock) : Int := (chain.map intoSapling).sum

theorem sproutValue_eq (block : CBlock) : sproutValue block = ofInt (intoSprout block) := by
  have joinsplit (value : CAmount) (js : JSDescription)
      : value + js.vpubOld - js.vpubNew
        = value + ofInt (js.vpubOld.toInt - js.vpubNew.toInt) := by
    rw [ofInt_sub, ofInt_toInt, ofInt_toInt, Int64.sub_eq_add_neg,
      Int64.sub_eq_add_neg, Int64.add_assoc]
  have transaction (value : CAmount) (tx : CTransaction)
      : tx.vJoinSplit.foldl (fun value js => value + js.vpubOld - js.vpubNew) value
        = value + ofInt tx.intoSprout :=
    MachineInt.foldl_ofInt joinsplit tx.vJoinSplit value
  rw [sproutValue, MachineInt.foldl_ofInt transaction, Int64.zero_add, intoSprout]

theorem saplingValue_eq (block : CBlock)
    : saplingValue block = ofInt (intoSapling block) := by
  have transaction (value : CAmount) (tx : CTransaction)
      : value + -tx.valueBalance = value + ofInt tx.intoSapling := by
    rw [CTransaction.intoSapling, ofInt_neg, ofInt_toInt]
  rw [saplingValue, MachineInt.foldl_ofInt transaction, Int64.zero_add, intoSapling]

end Resistance.Chain

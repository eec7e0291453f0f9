import Resistance.BlockTree.Chain
import Resistance.BlockTree.MostWork

/-! `ActivateBestChainStep` of `main.cpp`: blocks that are not in the best chain are
disconnected, and blocks of the best chain connected until the tip is better than before.
-/

namespace Resistance.BlockTree

open Lib.Checks Primitives

/-- What `ConnectBlock` says of a block. -/
inductive Verdict where
  | valid
  | invalid (corruptionPossible : Bool)
  /-- Disk space, database error, ... -/
  | systemError
  deriving DecidableEq

/-- How `ActivateBestChainStep` ends. -/
inductive StepResult where
  | done
  /-- The node is shutting down for your safety. -/
  | reorgTooLong
  | systemError
  deriving DecidableEq

/-- Where the loop over the blocks to connect stands. -/
inductive Progress where
  | unfinished
  /-- We're in a better position than we were. -/
  | better
  | invalidFound
  | systemError
  deriving DecidableEq

/-- `pindex->nStatus |= BLOCK_FAILED_VALID`. -/
def CBlockIndex.markFailedValid (entry : CBlockIndex) : CBlockIndex :=
  { entry with nStatus := { entry.nStatus with failedValid := true } }

/-- What `ConnectBlock` leaves in the status of a block other than the genesis block. -/
def CBlockIndex.markConnected (entry : CBlockIndex) : CBlockIndex :=
  if entry.pprev = none then entry
  else { entry with nStatus := { entry.nStatus with haveUndo := true }.raiseValidity .scripts }

namespace Tree

/-- `InvalidChainFound`, but for its warnings. -/
def invalidChainFound (tree : Tree) (pindexNew : Pointer) : Except String Tree := do
  assertThat (tree.tip ≠ none) "tip"
  return tree.raiseBestInvalid pindexNew

/-- `InvalidBlockFound`, but for the peer that sent the block. -/
def invalidBlockFound (tree : Tree) (pindex : Pointer) (corruptionPossible : Bool)
    : Except String Tree :=
  if corruptionPossible then .ok tree
  else
    ((tree.modify pindex CBlockIndex.markFailedValid).eraseCandidate pindex).invalidChainFound
      pindex

/-- `DisconnectTip`, where reading and disconnecting the block succeeds. -/
def disconnectTip (tree : Tree) : Except String Tree :=
  match tree.tip with
  | none => .error "pindexDelete"
  | some pindexDelete => .ok (tree.setTip (tree.index pindexDelete).pprev)

/-- `while (chainActive.Tip() && chainActive.Tip() != pindexFork)`; every round shortens the
chain.
-/
def disconnectTo (pindexFork : Option Pointer) : Nat → Tree → Except String Tree
  | 0, _ => .error "out of rounds"
  | fuel + 1, tree =>
    if tree.tip = none ∨ tree.tip = pindexFork then .ok tree
    else do
      let tree ← tree.disconnectTip
      disconnectTo pindexFork fuel tree

/-- `ConnectTip`: whether the block was connected, and the new state. -/
def connectTip (verdict : Pointer → Verdict) (tree : Tree) (pindexNew : Pointer)
    : Except String (Verdict × Tree) := do
  assertThat ((tree.index pindexNew).pprev = tree.tip) "pindexNew->pprev == chainActive.Tip()"
  match verdict pindexNew with
  | .valid =>
    return (.valid, (tree.modify pindexNew CBlockIndex.markConnected).setTip (some pindexNew))
  | .invalid corruptionPossible =>
    let tree ← tree.invalidBlockFound pindexNew corruptionPossible
    return (.invalid corruptionPossible, tree)
  | .systemError => return (.systemError, tree)

/-- `PruneBlockIndexCandidates`: delete all entries that are worse than the current tip. -/
def pruneBlockIndexCandidates (tree : Tree) : Except String Tree :=
  match tree.tip with
  | none => .error "chainActive.Tip()"
  | some tip => do
    let kept := tree.setBlockIndexCandidates.filter fun p => !tree.worse p tip
    assertThat (kept ≠ []) "!setBlockIndexCandidates.empty()"
    return { tree with setBlockIndexCandidates := kept }

/-- `!pindexOldTip || chainActive.Tip()->nChainWork > pindexOldTip->nChainWork`. -/
def betterThan (tree : Tree) (pindexOldTip : Option Pointer) : Bool :=
  match pindexOldTip, tree.tip with
  | some old, some tip => (tree.index tip).nChainWork > (tree.index old).nChainWork
  | _, _ => true

/-- Connect new blocks, the first one of the list first; `last` is
`vpindexToConnect.back()`.
-/
def connectBlocks (verdict : Pointer → Verdict) (pindexOldTip : Option Pointer) (last : Pointer)
    : List Pointer → Tree → Except String (Progress × Tree)
  | [], tree => .ok (.unfinished, tree)
  | pindexConnect :: rest, tree => do
    match ← tree.connectTip verdict pindexConnect with
    | (.valid, tree) =>
      let tree ← tree.pruneBlockIndexCandidates
      if tree.betterThan pindexOldTip then return (.better, tree)
      connectBlocks verdict pindexOldTip last rest tree
    | (.invalid corruptionPossible, tree) =>
      -- The block violates a consensus rule.
      let tree ← if corruptionPossible then pure tree else tree.invalidChainFound last
      return (.invalidFound, tree)
    | (.systemError, tree) => return (.systemError, tree)

/-- The blocks from one down to, but without, the given height. -/
def blocksAbove (tree : Tree) (pindexIter : Option Pointer) (nHeight : Int) : List Pointer :=
  match pindexIter with
  | none => []
  | some pindex => (tree.path pindex).takeWhile fun q => (tree.index q).nHeight ≠ nHeight

/-- Connect the blocks above a height of the best chain, 32 at a time; every round goes up. -/
def connectLoop (verdict : Pointer → Verdict) (pindexOldTip : Option Pointer)
    (pindexMostWork : Pointer)
    : Nat → Int → Tree → Except String (Progress × Tree)
  | 0, _, _ => .error "out of rounds"
  | fuel + 1, nHeight, tree =>
    let top : Int := (tree.index pindexMostWork).nHeight
    if nHeight = top then .ok (.unfinished, tree)
    else do
      let nTargetHeight := min (nHeight + 32) top
      let vpindexToConnect :=
        tree.blocksAbove (tree.getAncestor pindexMostWork nTargetHeight) nHeight
      let (progress, tree) ← connectBlocks verdict pindexOldTip
        (vpindexToConnect.getLastD pindexMostWork) vpindexToConnect.reverse tree
      if progress = .unfinished then
        connectLoop verdict pindexOldTip pindexMostWork fuel nTargetHeight tree
      else return (progress, tree)

/-- The height of a block, or -1 if there is none. -/
def heightOf (tree : Tree) (pindex : Option Pointer) : Int :=
  (pindex.map fun p => ((tree.index p).nHeight : Int)).getD (-1)

/-- `ActivateBestChainStep`, but for the memory pool and the warnings. -/
def activateBestChainStep (verdict : Pointer → Verdict) (maxReorgLength : Int) (tree : Tree)
    (pindexMostWork : Pointer)
    : Except String (StepResult × Tree) := do
  let pindexOldTip := tree.tip
  let pindexFork := tree.findFork pindexMostWork
  let nForkHeight := tree.heightOf pindexFork
  let reorgLength := if pindexOldTip = none then 0 else tree.heightOf pindexOldTip - nForkHeight
  assertThat (maxReorgLength > 0) "MAX_REORG_LENGTH > 0"
  if reorgLength > maxReorgLength then return (.reorgTooLong, tree)
  -- Disconnect active blocks which are no longer in the best chain.
  let tree ← disconnectTo pindexFork (tree.chainActive.length + 1) tree
  let (progress, tree) ← connectLoop verdict pindexOldTip pindexMostWork
    ((tree.index pindexMostWork).nHeight + 2) nForkHeight tree
  return (if progress = .systemError then .systemError else .done, tree)

/-- One round of the loop of `ActivateBestChain`, under one lock: none if there is nothing to
do, otherwise how the step has ended.
-/
def activateBestChainRound (verdict : Pointer → Verdict) (maxReorgLength : Int) (tree : Tree)
    : Except String (Option StepResult × Tree) := do
  let (pindexMostWork, tree) ← tree.findMostWorkChain
  match pindexMostWork with
  | none => return (none, tree)
  | some pindexMostWork =>
    if tree.tip = some pindexMostWork then return (none, tree)
    let (result, tree) ← tree.activateBestChainStep verdict maxReorgLength pindexMostWork
    return (some result, tree)

end Tree

/-! How `main.cpp` accepts headers and blocks, and how `InvalidateBlock` and `ReconsiderBlock`
set and clear the marks of failed blocks.
-/

def minBlocksToKeep : Int := 288

/-- `nStatus &= ~BLOCK_FAILED_MASK`. -/
def CBlockIndex.clearFailed (entry : CBlockIndex) : CBlockIndex :=
  { entry with nStatus := { entry.nStatus with failedValid := false, failedChild := false } }

namespace Tree

/-- `AcceptBlockHeader` of a header that passes `CheckBlockHeader` and
`ContextualCheckBlockHeader`.
-/
def acceptBlockHeader (tree : Tree) (hashGenesisBlock hash : Uint256) (block : CBlockHeader)
    (address : Pointer)
    : Except String (Pointer × Tree) :=
  match tree.find hash with
  | some pindex =>
    -- Block header is already known.
    if (tree.index pindex).nStatus.failed then .error "duplicate" else .ok (pindex, tree)
  | none =>
    if hash = hashGenesisBlock then .ok (tree.addToBlockIndex hash block address)
    else match tree.find block.hashPrevBlock with
      | none => .error "bad-prevblk"
      | some pindexPrev =>
        if (tree.index pindexPrev).nStatus.failed then .error "bad-prevblk"
        else .ok (tree.addToBlockIndex hash block address)

/-- Whether `AcceptBlock` returns without processing the block. -/
def ignoresBlock (tree : Tree) (pindex : Pointer) (fRequested : Bool) : Bool :=
  let fAlreadyHave := (tree.index pindex).nStatus.haveData
  let fHasMoreWork : Bool := match tree.tip with
    | some tip => (tree.index pindex).nChainWork > (tree.index tip).nChainWork
    | none => true
  let fTooFarAhead : Bool := (tree.index pindex).nHeight > tree.activeHeight + minBlocksToKeep
  fAlreadyHave
    || !fRequested && ((tree.index pindex).nTx ≠ 0 || !fHasMoreWork || fTooFarAhead)

/-- `AcceptBlock` of a block that passes `CheckBlock` and `ContextualCheckBlock`. -/
def acceptBlock (checkpoint : PoolCheckpoint) (tree : Tree) (hashGenesisBlock hash : Uint256)
    (block : CBlock) (address : Pointer) (fRequested : Bool)
    : Except String Tree := do
  let (pindex, tree) ← tree.acceptBlockHeader hashGenesisBlock hash block.toCBlockHeader address
  if tree.ignoresBlock pindex fRequested then return tree
  tree.receivedBlockTransactions checkpoint block pindex

/-- `while (chainActive.Contains(pindex))`; every round shortens the chain. -/
def invalidateLoop (pindex : Pointer) : Nat → Tree → Except String Tree
  | 0, _ => .error "out of rounds"
  | fuel + 1, tree =>
    if !tree.contains pindex then .ok tree
    else match tree.tip with
      | none => .error "chainActive.Tip()"
      | some pindexWalk => do
        let tree := (tree.modify pindexWalk CBlockIndex.markFailedChild).eraseCandidate pindexWalk
        let tree ← tree.disconnectTip
        invalidateLoop pindex fuel tree

/-- `it->second->IsValid(BLOCK_VALID_TRANSACTIONS) && it->second->nChainTx`. -/
def connectable (tree : Tree) (p : Pointer) : Bool :=
  (tree.index p).nStatus.isValid .transactions && tree.linked p

/-- Add every block again that is not worse than the tip. -/
def refillCandidates (tree : Tree) (tip : Pointer) : Tree :=
  tree.blocks.foldl
    (fun tree p => if tree.connectable p && !tree.worse p tip then tree.insertCandidate p else tree)
    tree

/-- `InvalidateBlock`, but for the memory pool. -/
def invalidateBlock (tree : Tree) (pindex : Pointer) : Except String Tree := do
  -- Mark the block itself as invalid.
  let tree := (tree.modify pindex CBlockIndex.markFailedValid).eraseCandidate pindex
  let tree ← invalidateLoop pindex (tree.chainActive.length + 1) tree
  match tree.tip with
  | none => .error "chainActive.Tip()"
  -- The resulting new best tip may not be in setBlockIndexCandidates anymore, so add it again.
  | some tip => (tree.refillCandidates tip).invalidChainFound pindex

/-- One round of the first loop of `ReconsiderBlock`. -/
def reconsiderDescendant (pindex tip : Pointer) (tree : Tree) (p : Pointer) : Tree :=
  if !(tree.index p).nStatus.isValid .transactions
      && tree.getAncestor p (tree.index pindex).nHeight = some pindex then
    let tree := tree.modify p CBlockIndex.clearFailed
    let tree := if tree.connectable p && tree.worse tip p then tree.insertCandidate p else tree
    -- Reset invalid block marker if it was pointing to one of those.
    { tree with
      pindexBestInvalid := if tree.pindexBestInvalid = some p then none
        else tree.pindexBestInvalid }
  else tree

/-- `ReconsiderBlock`: remove the invalidity flag from the block and all its descendants, then
from all ancestors too.
-/
def reconsiderBlock (tree : Tree) (pindex : Pointer) : Except String Tree :=
  match tree.tip with
  | none => .error "chainActive.Tip()"
  | some tip =>
    let tree := tree.blocks.foldl (reconsiderDescendant pindex tip) tree
    .ok ((tree.path pindex).foldl (fun tree p => tree.modify p CBlockIndex.clearFailed) tree)

end Tree

/-- What the node is configured with. -/
structure NodeConfig where
  hashGenesisBlock : Uint256
  checkpoint : PoolCheckpoint := {}
  maxReorgLength : Int := 99

/-- What happens to the block tree under one lock. -/
inductive Move where
  | header (hash : Uint256) (block : CBlockHeader) (address : Pointer)
  | block (hash : Uint256) (block : CBlock) (address : Pointer) (fRequested : Bool)
  | activate
  | invalidate (pindex : Pointer)
  | reconsider (pindex : Pointer)

/-- The state after a move, where no block fails validation on its own. -/
def Move.run (config : NodeConfig) (tree : Tree) : Move → Except String Tree
  | .header hash content address =>
    (tree.acceptBlockHeader config.hashGenesisBlock hash content address).map Prod.snd
  | .block hash content address fRequested =>
    tree.acceptBlock config.checkpoint config.hashGenesisBlock hash content address fRequested
  | .activate =>
    (tree.activateBestChainRound (fun _ => .valid) config.maxReorgLength).map Prod.snd
  | .invalidate pindex => tree.invalidateBlock pindex
  | .reconsider pindex => tree.reconsiderBlock pindex

end Resistance.BlockTree

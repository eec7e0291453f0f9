import Mathlib.Data.Prod.Lex
import Resistance.Chain.BlockIndex
import Resistance.Lib.Forest
import Resistance.Pow.Headers

/-! The block index of `main.cpp` and `chain.h`: all known headers as a heap of linked
objects, the order in which tips are preferred, and `AddToBlockIndex`.
-/

namespace Resistance.BlockTree

open Primitives Lib.Forest Lib.Checks

-- The address of a `CBlockIndex`; addresses are compared as the last resort between tips.
abbrev Pointer := Nat

/-- The validity levels of `BlockStatus`. -/
inductive BlockValidity where
  | unknown
  | header
  | tree
  | transactions
  | chain
  | scripts
  deriving DecidableEq

def BlockValidity.level : BlockValidity → Nat
  | unknown => 0
  | header => 1
  | tree => 2
  | transactions => 3
  | chain => 4
  | scripts => 5

/-- The bits of `nStatus`: `BLOCK_VALID_MASK`, and the flags. -/
structure BlockStatus where
  valid : BlockValidity := .unknown
  haveData : Bool := false
  haveUndo : Bool := false
  failedValid : Bool := false
  failedChild : Bool := false
  deriving DecidableEq

namespace BlockStatus

/-- `nStatus & BLOCK_FAILED_MASK`. -/
def failed (nStatus : BlockStatus) : Bool := nStatus.failedValid || nStatus.failedChild

def isValid (nStatus : BlockStatus) (nUpTo : BlockValidity) : Bool :=
  !nStatus.failed && nUpTo.level ≤ nStatus.valid.level

def raiseValidity (nStatus : BlockStatus) (nUpTo : BlockValidity) : BlockStatus :=
  if nStatus.failed then nStatus
  else if nStatus.valid.level < nUpTo.level then { nStatus with valid := nUpTo }
  else nStatus

@[simp] theorem haveData_raiseValidity (nStatus : BlockStatus) (nUpTo : BlockValidity)
    : (nStatus.raiseValidity nUpTo).haveData = nStatus.haveData := by
  unfold raiseValidity
  split
  · rfl
  · split <;> rfl

@[simp] theorem failed_raiseValidity (nStatus : BlockStatus) (nUpTo : BlockValidity)
    : (nStatus.raiseValidity nUpTo).failed = nStatus.failed := by
  unfold raiseValidity
  split
  · rfl
  · split <;> rfl

variable {nStatus : BlockStatus}

theorem level_le_raiseValidity (nUpTo : BlockValidity) (unfailed : nStatus.failed = false)
    : nUpTo.level ≤ (nStatus.raiseValidity nUpTo).valid.level
      ∧ nStatus.valid.level ≤ (nStatus.raiseValidity nUpTo).valid.level := by
  unfold raiseValidity
  rw [unfailed]
  split
  next absurd => cases absurd
  next =>
    split
    next raised => exact ⟨Nat.le_refl _, Nat.le_of_lt raised⟩
    next high => exact ⟨Nat.not_lt.mp high, Nat.le_refl _⟩

theorem valid_le_raiseValidity (nStatus : BlockStatus) (nUpTo : BlockValidity)
    : nStatus.valid.level ≤ (nStatus.raiseValidity nUpTo).valid.level := by
  cases failed : nStatus.failed with
  | true => rw [raiseValidity, if_pos failed]
  | false => exact (level_le_raiseValidity nUpTo failed).2

theorem isValid_raiseValidity {level} (nUpTo : BlockValidity) (valid : nStatus.isValid level = true)
    : (nStatus.raiseValidity nUpTo).isValid level = true := by
  rw [isValid, Bool.and_eq_true, Bool.not_eq_true', decide_eq_true_eq] at valid ⊢
  rw [failed_raiseValidity]
  exact ⟨valid.1, valid.2.trans (level_le_raiseValidity nUpTo valid.1).2⟩

end BlockStatus

/-- `CBlockIndex`, as `SetNull` leaves it by default. -/
structure CBlockIndex where
  /-- `*phashBlock`. -/
  hash : Uint256 := .null
  pprev : Option Pointer := none
  pskip : Option Pointer := none
  nHeight : Nat := 0
  nChainWork : Nat := 0
  nTx : UInt32 := 0
  nChainTx : UInt32 := 0
  nStatus : BlockStatus := {}
  nSproutValue : Option CAmount := none
  nChainSproutValue : Option CAmount := none
  nSaplingValue : CAmount := 0
  nChainSaplingValue : Option CAmount := none
  nBits : UInt32 := 0
  nSequenceId : UInt32 := 0

/-- The globals of `main.cpp` that hold the block tree. `setBlockIndexCandidates` is kept as
the list of its members and `mapBlocksUnlinked` as the list of its pairs.
-/
structure Tree where
  index : Pointer → CBlockIndex := fun _ => {}
  mapBlockIndex : List (Uint256 × Pointer) := []
  setBlockIndexCandidates : List Pointer := []
  mapBlocksUnlinked : List (Pointer × Pointer) := []
  /-- `vChain` of `chainActive`. -/
  chainActive : List (Option Pointer) := []
  nBlockSequenceId : UInt32 := 1
  pindexBestHeader : Option Pointer := none
  pindexBestInvalid : Option Pointer := none
  fHavePruned : Bool := false

namespace Tree

/-- Assignments to fields of `*pindex`. -/
def modify (tree : Tree) (pindex : Pointer) (f : CBlockIndex → CBlockIndex) : Tree :=
  { tree with index := fun p => if p = pindex then f (tree.index p) else tree.index p }

@[simp] theorem index_modify_self (tree : Tree) (pindex : Pointer) (f : CBlockIndex → CBlockIndex)
    : (tree.modify pindex f).index pindex = f (tree.index pindex) :=
  if_pos rfl

variable {p pa pb : Pointer} {tree : Tree}

theorem index_modify_ne (tree : Tree) {pindex} (f : CBlockIndex → CBlockIndex) (ne : p ≠ pindex)
    : (tree.modify pindex f).index p = tree.index p :=
  if_neg ne

/-- What the change leaves alone stays as it was. -/
theorem modify_field {β f} (field : CBlockIndex → β) (q : Pointer)
    (static : ∀ entry, field (f entry) = field entry := by intro; rfl)
    : field ((tree.modify p f).index q) = field (tree.index q) := by
  by_cases same : q = p
  · subst same
    rw [index_modify_self, static]
  · rw [index_modify_ne tree f same]

/-- The entries of `mapBlockIndex`, in the order in which a loop visits them. -/
def blocks (tree : Tree) : List Pointer := tree.mapBlockIndex.map Prod.snd

/-- `mapBlockIndex.find`. -/
def find (tree : Tree) (hash : Uint256) : Option Pointer := tree.mapBlockIndex.lookup hash

/-- `setBlockIndexCandidates.insert` and `erase`. -/
def insertCandidate (tree : Tree) (pindex : Pointer) : Tree :=
  { tree with setBlockIndexCandidates := tree.setBlockIndexCandidates.insert pindex }

def eraseCandidate (tree : Tree) (pindex : Pointer) : Tree :=
  { tree with
    setBlockIndexCandidates := tree.setBlockIndexCandidates.filter (· ≠ pindex) }

/-- The block and its ancestors, down to the genesis block. -/
def path (tree : Tree) (pindex : Pointer) : List Pointer :=
  lineage (fun p => (tree.index p).pprev) (tree.index pindex).nHeight pindex

theorem path_cons (tree : Tree) (p : Pointer) : ∃ rest, tree.path p = p :: rest :=
  lineage_cons _ _ p

/-- `CBlockIndexWorkComparator`: whether `pa` is worse than `pb`. -/
def worse (tree : Tree) (pa pb : Pointer) : Bool :=
  let a := tree.index pa
  let b := tree.index pb
  -- First sort by most total work, ...
  if a.nChainWork > b.nChainWork then false
  else if a.nChainWork < b.nChainWork then true
  -- ... then by earliest time received, ...
  else if a.nSequenceId < b.nSequenceId then false
  else if a.nSequenceId > b.nSequenceId then true
  -- Use pointer address as tie breaker.
  else if pa < pb then false
  else if pa > pb then true
  else false

/-- The keys that the comparator compares lexicographically. -/
def rank (tree : Tree) (p : Pointer) : Nat ×ₗ Natᵒᵈ ×ₗ Natᵒᵈ :=
  toLex ((tree.index p).nChainWork,
    toLex (OrderDual.toDual (tree.index p).nSequenceId.toNat, OrderDual.toDual p))

theorem rank_lt_iff
    : tree.rank pa < tree.rank pb
      ↔ (tree.index pa).nChainWork < (tree.index pb).nChainWork
        ∨ (tree.index pa).nChainWork = (tree.index pb).nChainWork
          ∧ ((tree.index pb).nSequenceId < (tree.index pa).nSequenceId
            ∨ (tree.index pa).nSequenceId = (tree.index pb).nSequenceId ∧ pb < pa) := by
  simp only [rank, Prod.Lex.toLex_lt_toLex, OrderDual.toDual_lt_toDual,
    EmbeddingLike.apply_eq_iff_eq, UInt32.lt_iff_toNat_lt, UInt32.toNat_inj]

theorem worse_iff
    : tree.worse pa pb = true ↔ tree.rank pa < tree.rank pb := by
  rw [rank_lt_iff, worse]
  simp only [UInt32.lt_iff_toNat_lt, ← UInt32.toNat_inj]
  rcases lt_trichotomy (tree.index pa).nChainWork (tree.index pb).nChainWork with
    work | work | work
  · simp [work, work.not_gt]
  · rcases lt_trichotomy (tree.index pa).nSequenceId.toNat
      (tree.index pb).nSequenceId.toNat with sequence | sequence | sequence
    · simp [work, sequence, sequence.ne, sequence.not_gt]
    · rcases lt_trichotomy pa pb with address | address | address
      · simp [work, sequence, address.not_gt]
      · simp [address]
      · simp [work, sequence, address.not_gt]
    · simp [work, sequence, sequence.not_gt]
  · simp [work, work.ne', work.not_gt]

theorem worse_eq_false
    : tree.worse pa pb = false ↔ tree.rank pb ≤ tree.rank pa := by
  rw [← Bool.not_eq_true, worse_iff, not_lt]

/-- Tips of the same rank are the same. -/
theorem rank_injective (tree : Tree) : Function.Injective tree.rank := by
  intro pa pb same
  have inner := congrArg Prod.snd (toLex.injective same)
  exact OrderDual.toDual.injective (congrArg Prod.snd (toLex.injective inner))

theorem rank_congr {other : Tree} (work : (other.index p).nChainWork = (tree.index p).nChainWork)
    (sequence : (other.index p).nSequenceId = (tree.index p).nSequenceId)
    : other.rank p = tree.rank p := by
  rw [rank, rank, work, sequence]

def invertLowestOne (n : Nat) : Nat := n &&& (n - 1)

def getSkipHeight (height : Nat) : Nat :=
  if height < 2 then 0
  else if height % 2 = 1 then invertLowestOne (invertLowestOne (height - 1)) + 1
  else invertLowestOne height

/-- The loop of `GetAncestor`, with at most `fuel` rounds; every round goes down. -/
def getAncestorLoop (tree : Tree) (height : Nat) : Nat → Pointer → Nat → Option Pointer
  | 0, pindexWalk, _ => some pindexWalk
  | fuel + 1, pindexWalk, heightWalk =>
    if heightWalk > height then
      let heightSkip := getSkipHeight heightWalk
      let heightSkipPrev := getSkipHeight (heightWalk - 1)
      match (tree.index pindexWalk).pskip with
      | some pskip =>
        if heightSkip = height
            ∨ (heightSkip > height
              ∧ ¬ (heightSkipPrev + 2 < heightSkip ∧ heightSkipPrev ≥ height)) then
          -- Only follow pskip if pprev->pskip isn't better than pskip->pprev.
          getAncestorLoop tree height fuel pskip heightSkip
        else
          (tree.index pindexWalk).pprev.bind fun pprev =>
            getAncestorLoop tree height fuel pprev (heightWalk - 1)
      | none =>
        (tree.index pindexWalk).pprev.bind fun pprev =>
          getAncestorLoop tree height fuel pprev (heightWalk - 1)
    else some pindexWalk

/-- `GetAncestor`. -/
def getAncestor (tree : Tree) (pindex : Pointer) (height : Int) : Option Pointer :=
  if height > (tree.index pindex).nHeight ∨ height < 0 then none
  else
    tree.getAncestorLoop height.toNat (tree.index pindex).nHeight pindex
      (tree.index pindex).nHeight

/-- The new object of `AddToBlockIndex`, given its predecessor. -/
def newBlockIndex (tree : Tree) (hash : Uint256) (block : CBlockHeader) (pprev : Option Pointer)
    : CBlockIndex :=
  let nHeight := match pprev with
    | some prev => (tree.index prev).nHeight + 1
    | none => 0
  let workBefore := match pprev with
    | some prev => (tree.index prev).nChainWork
    | none => 0
  {
    hash
    pprev
    nHeight
    -- `BuildSkip`.
    pskip := pprev.bind fun prev => tree.getAncestor prev (getSkipHeight nHeight)
    nChainWork := (workBefore + Pow.proofValue block.nBits) % 2 ^ 256
    nStatus := BlockStatus.raiseValidity {} .tree
    nBits := block.nBits
  }

/-- `pindexBestHeader` follows a header with more work. -/
def raiseBestHeader (tree : Tree) (pindexNew : Pointer) : Tree :=
  {
    tree with
    pindexBestHeader := match tree.pindexBestHeader with
      | none => some pindexNew
      | some best =>
        if (tree.index best).nChainWork < (tree.index pindexNew).nChainWork then
          some pindexNew
        else some best
  }

/-- `AddToBlockIndex` of a header whose `GetHash()` is `hash`; `address` is where the new
object is allocated.
-/
def addToBlockIndex (tree : Tree) (hash : Uint256) (block : CBlockHeader) (address : Pointer)
    : Pointer × Tree :=
  match tree.find hash with
  -- Check for duplicate
  | some pindex => (pindex, tree)
  | none =>
    let tree := { tree with mapBlockIndex := (hash, address) :: tree.mapBlockIndex }
    let pindexNew := tree.newBlockIndex hash block (tree.find block.hashPrevBlock)
    (address, (tree.modify address fun _ => pindexNew).raiseBestHeader address)

end Tree

/-! `ReceivedBlockTransactions` of `main.cpp`: a block whose ancestors all have data is linked,
and with it the descendants that were waiting for it in `mapBlocksUnlinked`.
-/

/-- The settings of `FallbackSproutValuePoolBalance`. -/
structure PoolCheckpoint where
  fZIP209Enabled : Bool := false
  /-- `fExperimentalMode` with `-developersetpoolsizezero`. -/
  developerSetPoolSizeZero : Bool := false
  nSproutValuePoolCheckpointHeight : Int := 0
  nSproutValuePoolCheckpointBalance : CAmount := 0
  hashSproutValuePoolCheckpointBlock : Uint256 := .null

/-- `FallbackSproutValuePoolBalance`. -/
def PoolCheckpoint.fallbackSproutValuePoolBalance (checkpoint : PoolCheckpoint)
    (pindex : CBlockIndex)
    : Except String CBlockIndex :=
  if !checkpoint.fZIP209Enabled then .ok pindex
  else if checkpoint.developerSetPoolSizeZero then .ok pindex
  else if pindex.nHeight = checkpoint.nSproutValuePoolCheckpointHeight
      ∧ pindex.hash = checkpoint.hashSproutValuePoolCheckpointBlock then
    match pindex.nChainSproutValue with
    | none =>
      .ok { pindex with
        nChainSproutValue := some checkpoint.nSproutValuePoolCheckpointBalance }
    | some value =>
      if value ≠ checkpoint.nSproutValuePoolCheckpointBalance then
        .error "*pindex->nChainSproutValue == chainparams.SproutValuePoolCheckpointBalance()"
      else if pindex.nSproutValue = none then .error "pindex->nSproutValue != boost::none"
      else .ok pindex
  else .ok pindex

/-- The totals of a block, from those of its predecessor. -/
def CBlockIndex.withTotals (pindex : CBlockIndex) : Option CBlockIndex → CBlockIndex
  | some pprev => {
      pindex with
      nChainTx := pprev.nChainTx + pindex.nTx
      nChainSproutValue := pprev.nChainSproutValue.bind fun before =>
        pindex.nSproutValue.map fun value => before + value
      nChainSaplingValue := pprev.nChainSaplingValue.map (· + pindex.nSaplingValue)
    }
  | none => {
      pindex with
      nChainTx := pindex.nTx
      nChainSproutValue := pindex.nSproutValue
      nChainSaplingValue := some pindex.nSaplingValue
    }

/-- What `ReceivedBlockTransactions` stores in the block itself. -/
def CBlockIndex.received (entry : CBlockIndex) (block : CBlock) : CBlockIndex :=
  {
    entry with
    nTx := UInt32.ofNat block.vtx.length
    nChainTx := 0
    nSproutValue := some (Chain.sproutValue block)
    nChainSproutValue := none
    nSaplingValue := Chain.saplingValue block
    nChainSaplingValue := none
    nStatus := BlockStatus.raiseValidity { entry.nStatus with haveData := true } .transactions
  }

namespace Tree

/-- `chainActive.Tip()`. -/
def tip (tree : Tree) : Option Pointer := tree.chainActive.getLast?.join

/-- Whether a block is not worse than the tip, if there is a tip. -/
def notWorseThanTip (tree : Tree) (pindex : Pointer) : Bool :=
  match tree.tip with
  | none => true
  | some tip => !tree.worse pindex tip

theorem notWorseThanTip_iff {tree : Tree} {p}
    : tree.notWorseThanTip p = true ↔ ∀ t, tree.tip = some t → tree.rank t ≤ tree.rank p := by
  cases isTip : tree.tip <;> simp [notWorseThanTip, isTip, worse_eq_false]

def prev (tree : Tree) (pindex : Pointer) : Option CBlockIndex :=
  (tree.index pindex).pprev.map tree.index

/-- `pindexNew->pprev == NULL || pindexNew->pprev->nChainTx`. -/
def parentLinked (tree : Tree) (pindex : Pointer) : Bool :=
  match tree.prev pindex with
  | none => true
  | some pprev => pprev.nChainTx ≠ 0

/-- One round of the loop of `ReceivedBlockTransactions`, but for the queue. -/
def linkBlock (checkpoint : PoolCheckpoint) (tree : Tree) (pindex : Pointer)
    : Except String Tree := do
  let entry ← checkpoint.fallbackSproutValuePoolBalance
    ((tree.index pindex).withTotals (tree.prev pindex))
  let tree := tree.modify pindex fun _ => { entry with nSequenceId := tree.nBlockSequenceId }
  let tree := { tree with nBlockSequenceId := tree.nBlockSequenceId + 1 }
  return if tree.notWorseThanTip pindex then tree.insertCandidate pindex else tree

/-- `mapBlocksUnlinked.equal_range(pindex)`. -/
def unlinkedChildren (tree : Tree) (pindex : Pointer) : List Pointer :=
  (tree.mapBlocksUnlinked.filter (·.1 = pindex)).map Prod.snd

def eraseUnlinked (tree : Tree) (pindex : Pointer) : Tree :=
  { tree with mapBlocksUnlinked := tree.mapBlocksUnlinked.filter (·.1 ≠ pindex) }

/-- Recursively process any descendant blocks that now may be eligible to be connected. Every
round takes a block out of the queue, and a block enters it from `mapBlocksUnlinked`.
-/
def linkLoop (checkpoint : PoolCheckpoint) : Nat → List Pointer → Tree → Except String Tree
  | _, [], tree => .ok tree
  | 0, _ :: _, tree => .ok tree
  | fuel + 1, pindex :: queue, tree => do
    let tree ← tree.linkBlock checkpoint pindex
    linkLoop checkpoint fuel (queue ++ tree.unlinkedChildren pindex) (tree.eraseUnlinked pindex)

def storeBlock (tree : Tree) (block : CBlock) (pindexNew : Pointer) : Tree :=
  tree.modify pindexNew fun entry => entry.received block

def receivedBlockTransactions (checkpoint : PoolCheckpoint) (tree : Tree) (block : CBlock)
    (pindexNew : Pointer)
    : Except String Tree :=
  let tree := tree.storeBlock block pindexNew
  if tree.parentLinked pindexNew then
    -- If pindexNew is the genesis block or all parents are BLOCK_VALID_TRANSACTIONS.
    linkLoop checkpoint (tree.mapBlocksUnlinked.length + 1) [pindexNew] tree
  else match (tree.index pindexNew).pprev with
    | some pprev =>
      if (tree.index pprev).nStatus.isValid .tree then
        .ok { tree with mapBlocksUnlinked := tree.mapBlocksUnlinked ++ [(pprev, pindexNew)] }
      else .ok tree
    | none => .ok tree

end Tree

end Resistance.BlockTree

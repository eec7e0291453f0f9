import Resistance.BlockTree.Marks

/-! Which interleavings of header arrivals, block arrivals, activations, `InvalidateBlock` and
`ReconsiderBlock` lose no block.
-/

namespace Resistance.BlockTree

open Primitives Lib.Forest Lib.Checks Consensus

namespace Tree

variable {tree after : Tree}

/-- No block that could be used is lost: a block whose chain has data and no marks of failure
is linked, and is a candidate if it is as good as the tip; a block that is not linked waits for
its parent.
-/
structure LosesNoBlock (tree : Tree) : Prop where
  chosen : ∀ p ∈ tree.blocks,
    (∀ q ∈ tree.path p, tree.hasData q = true ∧ (tree.index q).nStatus.failed = false)
    → (tree.index p).nChainTx ≠ 0
      ∧ (tree.notWorseThanTip p = true → p ∈ tree.setBlockIndexCandidates)
  waiting : ∀ p ∈ tree.blocks, tree.hasData p = true → (tree.index p).nChainTx = 0
    → ∃ q, (tree.index p).pprev = some q ∧ (q, p) ∈ tree.mapBlocksUnlinked

theorem Sound.losesNoBlock (sound : Sound tree) : LosesNoBlock tree where
  chosen := by
    intro p mem clean
    have isLinked : tree.linked p = true :=
      (sound.linking.linked_iff sound.formed mem).mpr fun q ancestor => (clean q ancestor).1
    have notFailed := (clean p (sound.formed.graded.self_mem p)).2
    exact ⟨of_decide_eq_true isLinked, sound.complete p mem isLinked notFailed⟩
  waiting := by
    intro p mem data notLinked
    have waits := sound.linking.waiting p mem data (decide_eq_false (not_not.mpr notLinked))
    rcases waits with queued | listed
    · cases queued
    · exact listed

/-- What the caller and the checks of a header grant when it is added: memory that is not in
use, a positive proof of work, a total of work that fits 256 bits, and that the genesis block
has no parent.
-/
structure Addable (tree : Tree) (hashGenesisBlock hash : Uint256) (block : CBlockHeader)
    (address : Pointer) : Prop where
  fresh : address ∉ tree.blocks
  proof : 0 < Pow.proofValue block.nBits
  fits : ∀ q, tree.find block.hashPrevBlock = some q
    → (tree.index q).nChainWork + Pow.proofValue block.nBits < 2 ^ 256
  genesis : hash = hashGenesisBlock
    → tree.find block.hashPrevBlock = none ∧ block.hashPrevBlock ≠ hash

section Arrivals

variable {hashGenesisBlock hash : Uint256} {address : Pointer}
  {p : Pointer} {fRequested : Bool} {checkpoint : PoolCheckpoint}

section

variable {block : CBlockHeader}
  (addable : tree.find hash = none → Addable tree hashGenesisBlock hash block address)
  (run : tree.acceptBlockHeader hashGenesisBlock hash block address = .ok (p, after))
include addable run

/-- An accepted header is known and not marked, or is added below a parent that is not. -/
theorem acceptBlockHeader_ok
    : tree.find hash = some p ∧ (tree.index p).nStatus.failed = false ∧ after = tree
      ∨ tree.find hash = none ∧ p = address ∧ HeaderAdded tree hash block address after
        ∧ ∀ q, tree.find block.hashPrevBlock = some q → (tree.index q).nStatus.failed = false := by
  rw [acceptBlockHeader] at run
  cases known : tree.find hash with
  | some found =>
    left
    simp only [known] at run
    split at run
    next => cases run
    next notFailed =>
      cases run
      exact ⟨rfl, Bool.not_eq_true _ ▸ notFailed, rfl⟩
  | none =>
    right
    have granted := addable known
    have new : block.hashPrevBlock ≠ hash
        → tree.addToBlockIndex hash block address = (p, after)
        → p = address ∧ HeaderAdded tree hash block address after := by
      intro ne added
      have entry :
          HeaderAdded tree hash block address (tree.addToBlockIndex hash block address).2 :=
        addToBlockIndex_new known ne
      have place : (tree.addToBlockIndex hash block address).1 = address := by
        rw [addToBlockIndex, known]
      rw [added] at entry place
      exact ⟨place, entry⟩
    simp only [known] at run
    by_cases isGenesis : hash = hashGenesisBlock
    · rw [if_pos isGenesis] at run
      obtain ⟨noParent, ne⟩ := granted.genesis isGenesis
      obtain ⟨place, entry⟩ := new ne (Except.ok.inj run)
      refine ⟨rfl, place, entry, fun q found => ?_⟩
      rw [noParent] at found
      cases found
    · rw [if_neg isGenesis] at run
      split at run
      next => cases run
      next parent found =>
        split at run
        next => cases run
        next notFailed =>
          have ne : block.hashPrevBlock ≠ hash := by
            rintro same
            rw [same, known] at found
            cases found
          obtain ⟨place, entry⟩ := new ne (Except.ok.inj run)
          refine ⟨rfl, place, entry, fun q foundToo => ?_⟩
          cases found.symm.trans foundToo
          exact Bool.not_eq_true _ ▸ notFailed

theorem Sound.acceptBlockHeader (sound : Sound tree)
    : Sound after := by
  rcases acceptBlockHeader_ok addable run with ⟨-, -, rfl⟩ | ⟨new, -, added, -⟩
  · exact sound
  · have granted := addable new
    exact added.sound granted.fresh granted.proof granted.fits sound

end

/-- The parent of a known block that is not linked is not marked when the data of the block
arrives.
-/
def ParentUnmarked (tree : Tree) (hash : Uint256) (fRequested : Bool) : Prop :=
  ∀ p q, tree.find hash = some p → tree.ignoresBlock p fRequested = false
    → (tree.index p).pprev = some q → tree.linked q = false
    → (tree.index q).nStatus.failed = false

theorem hasData_of_ignoresBlock (accepted : tree.ignoresBlock p fRequested = false)
    : tree.hasData p = false := by
  rw [ignoresBlock, Bool.or_eq_false_iff] at accepted
  exact accepted.1

theorem Sound.acceptBlock {block} (sound : Sound tree) (addable : tree.find hash = none
      → Addable tree hashGenesisBlock hash block.toCBlockHeader address) (nonempty : block.vtx ≠ [])
    (length : block.vtx.length < 2 ^ 32) (unmarked : tree.ParentUnmarked hash fRequested)
    (run : acceptBlock checkpoint tree hashGenesisBlock hash block address fRequested = .ok after)
    (small : Small after)
    : Sound after := by
  obtain ⟨⟨p, middle⟩, accepted, rest⟩ := bind_ok.mp run
  have kept := sound.acceptBlockHeader addable accepted
  dsimp only at rest
  cases ignored : middle.ignoresBlock p fRequested with
  | true =>
    rw [ignored] at rest
    cases rest
    exact kept
  | false =>
    rw [ignored] at rest
    have noData := hasData_of_ignoresBlock ignored
    rcases acceptBlockHeader_ok addable accepted with
      ⟨known, notFailed, rfl⟩ | ⟨new, rfl, added, parents⟩
    · exact receivedBlockTransactions_sound kept (mem_blocks_of_find known) noData notFailed
        nonempty length (fun q => unmarked p q known ignored) rest small
    have fresh := (addable new).fresh
    have mem : p ∈ middle.blocks := by
      rw [added.blocks]
      exact List.mem_cons_self
    have notFailed : (middle.index p).nStatus.failed = false := by
      rw [added.entry]
      rfl
    refine receivedBlockTransactions_sound kept mem noData notFailed nonempty length ?_ rest
      small
    intro q child _
    rw [added.pprev] at child
    rw [added.index_of_mem fresh (mem_blocks_of_find child)]
    exact parents q child

/-- The data of a block below a marked parent that is not linked is lost. -/
theorem Sound.acceptBlock_loses {block q} (sound : Sound tree) (known : tree.find hash = some p)
    (accepted : tree.ignoresBlock p fRequested = false) (child : (tree.index p).pprev = some q)
    (notLinked : tree.linked q = false) (marked : (tree.index q).nStatus.failed = true)
    (run : Tree.acceptBlock checkpoint tree hashGenesisBlock hash block address fRequested
      = .ok after)
    : p ∈ after.blocks ∧ after.hasData p = true ∧ (after.index p).nChainTx = 0
      ∧ (after.index p).pprev = some q ∧ (q, p) ∉ after.mapBlocksUnlinked := by
  have noData := hasData_of_ignoresBlock accepted
  have mem := mem_blocks_of_find known
  obtain ⟨⟨p', middle⟩, header, rest⟩ := bind_ok.mp run
  rcases acceptBlockHeader_ok (fun new => absurd (known.symm.trans new) nofun) header with
    ⟨found, -, rfl⟩ | ⟨new, -⟩
  · cases known.symm.trans found
    dsimp only at rest
    rw [accepted] at rest
    have unlinkedNow := sound.linking.not_linked mem noData
    rcases receivedBlockTransactions_cases block rest with
      ⟨ready, -⟩ | ⟨_, childToo, -, ⟨valid, -⟩ | ⟨-, rfl⟩⟩
    · rw [storeBlock_parentLinked block sound.linking mem noData] at ready
      rw [parentLinked_iff.mp ready q child] at notLinked
      cases notLinked
    · cases child.symm.trans childToo
      rw [BlockStatus.isValid, storeBlock_failed, marked] at valid
      cases valid
    refine ⟨mem, storeBlock_hasData_self block, ?_, ?_, fun listed => ?_⟩
    · have same := storeBlock_linked block sound.linking mem noData p
      rw [unlinkedNow, linked, decide_eq_false_iff_not, not_not] at same
      exact same
    · rw [storeBlock_pprev block, child]
    · obtain ⟨-, -, data, -⟩ := sound.linking.unlinked q p listed
      rw [noData] at data
      cases data
  · rw [known] at new
    cases new

end Arrivals

/-- The ancestors whose marks `ReconsiderBlock` would clear are candidates if they are linked
and as good as the tip.
-/
def AncestorsListed (tree : Tree) (p : Pointer) : Prop :=
  ∀ q ∈ tree.path p, q ≠ p → (tree.index q).nStatus.failed = true → tree.linked q = true
    → tree.notWorseThanTip q = true → q ∈ tree.setBlockIndexCandidates

end Tree

namespace Move

variable {config : NodeConfig} {tree after : Tree} {move : Move}

/-- What callers and the checks of headers and blocks grant. -/
def Granted (config : NodeConfig) (tree : Tree) : Move → Prop
  | header hash content address =>
    tree.find hash = none → tree.Addable config.hashGenesisBlock hash content address
  | block hash content address _ =>
    (tree.find hash = none
      → tree.Addable config.hashGenesisBlock hash content.toCBlockHeader address)
    ∧ content.vtx ≠ [] ∧ content.vtx.length ≤ maxBlockSize
  | activate => True
  | invalidate pindex | reconsider pindex => pindex ∈ tree.blocks

/-- When a move loses no block. -/
def Safe (tree : Tree) : Move → Prop
  | block hash _ _ fRequested => tree.ParentUnmarked hash fRequested
  | reconsider pindex => tree.AncestorsListed pindex
  | _ => True

theorem map_snd_ok {ε α β} {run : Except ε (α × β)} {b} (mapped : run.map Prod.snd = .ok b)
    : ∃ a, run = .ok (a, b) := by
  cases run with
  | error e => cases mapped
  | ok pair =>
    cases mapped
    exact ⟨pair.1, rfl⟩

/-- A safe move keeps the invariant. -/
theorem sound (sound : Tree.Sound tree) (granted : move.Granted config tree)
    (safe : move.Safe tree) (run : move.run config tree = .ok after) (small : after.Small)
    : Tree.Sound after := by
  cases move with
  | header hash content address =>
    obtain ⟨p, accepted⟩ := map_snd_ok run
    exact sound.acceptBlockHeader granted accepted
  | block hash content address fRequested =>
    obtain ⟨addable, nonempty, size⟩ := granted
    have length : content.vtx.length < 2 ^ 32 := Nat.lt_of_le_of_lt size (by decide)
    exact sound.acceptBlock addable nonempty length safe run small
  | activate =>
    obtain ⟨result, activated⟩ := map_snd_ok run
    exact sound.activateBestChainRound activated
  | invalidate p => exact sound.invalidateBlock granted run
  | reconsider p => exact sound.reconsiderBlock granted safe run

/-- A move that is not safe loses a block at once. -/
theorem losesBlock (sound : Tree.Sound tree) (granted : move.Granted config tree)
    (notSafe : ¬ move.Safe tree) (run : move.run config tree = .ok after)
    : ¬ after.LosesNoBlock := by
  intro keeps
  cases move with
  | header hash content address => exact notSafe trivial
  | block hash content address fRequested =>
    refine notSafe fun p q known accepted child notLinked => ?_
    by_contra marked
    rw [Bool.not_eq_false] at marked
    obtain ⟨mem, data, notCounted, parent, lost⟩ :=
      sound.acceptBlock_loses known accepted child notLinked marked run
    obtain ⟨r, childToo, listed⟩ := keeps.waiting p mem data notCounted
    cases parent.symm.trans childToo
    exact lost listed
  | activate => exact notSafe trivial
  | invalidate p => exact notSafe trivial
  | reconsider p =>
    refine notSafe fun q ancestor ne _ isLinked asGood => ?_
    by_contra erased
    obtain ⟨mem, clean, stillGood, lost⟩ :=
      sound.reconsiderBlock_loses granted ancestor ne isLinked asGood erased run
    exact lost ((keeps.chosen q mem clean).2 stillGood)

end Move

/-- The node has gone through the states and moves, the latest one first, to a state. No chain
has more transactions than `nChainTx` can count.
-/
inductive Visits (config : NodeConfig) : List (Tree × Move) → Tree → Prop where
  | start : Visits config [] {}
  | move {past : List (Tree × Move)} {tree after : Tree} {move : Move}
      (visits : Visits config past tree) (granted : move.Granted config tree)
      (run : move.run config tree = .ok after) (small : after.Small)
      : Visits config ((tree, move) :: past) after

section Visits

variable {config : NodeConfig} {past : List (Tree × Move)} {tree : Tree}

theorem Visits.sound (visits : Visits config past tree)
    (safe : ∀ visited ∈ past, visited.2.Safe visited.1)
    : tree.Sound := by
  induction visits with
  | start => exact Tree.sound_start
  | move visits granted run small ih =>
    rw [List.forall_mem_cons] at safe
    exact Move.sound (ih safe.2) granted safe.1 run small

/-- A run loses no block at any moment exactly when all its moves are safe. -/
theorem Visits.losesNoBlock_iff_safe (visits : Visits config past tree)
    : (tree.LosesNoBlock ∧ ∀ visited ∈ past, visited.1.LosesNoBlock)
      ↔ ∀ visited ∈ past, visited.2.Safe visited.1 := by
  induction visits with
  | start =>
    exact ⟨fun _ _ mem => (nomatch mem), fun _ => ⟨Tree.sound_start.losesNoBlock, nofun⟩⟩
  | move visits granted run small ih =>
    simp only [List.forall_mem_cons]
    constructor
    · rintro ⟨keeps, keptBefore, earlier⟩
      have safe := ih.mp ⟨keptBefore, earlier⟩
      refine ⟨?_, safe⟩
      by_contra notSafe
      exact Move.losesBlock (visits.sound safe) granted notSafe run keeps
    · rintro ⟨safe, safeBefore⟩
      have sound := visits.sound safeBefore
      obtain ⟨keptBefore, earlier⟩ := ih.mpr safeBefore
      exact ⟨(Move.sound sound granted safe run small).losesNoBlock, keptBefore, earlier⟩

end Visits

section Compute

instance (tree : Tree) (hashGenesisBlock hash : Uint256) (block : CBlockHeader)
    (address : Pointer)
    : Decidable (tree.Addable hashGenesisBlock hash block address) :=
  decidable_of_iff
    (address ∉ tree.blocks ∧ 0 < Pow.proofValue block.nBits
      ∧ (∀ q ∈ tree.find block.hashPrevBlock,
        (tree.index q).nChainWork + Pow.proofValue block.nBits < 2 ^ 256)
      ∧ (hash = hashGenesisBlock
        → tree.find block.hashPrevBlock = none ∧ block.hashPrevBlock ≠ hash))
    ⟨fun ⟨fresh, proof, fits, genesis⟩ => ⟨fresh, proof, fits, genesis⟩,
      fun addable => ⟨addable.fresh, addable.proof, addable.fits, addable.genesis⟩⟩

instance (config : NodeConfig) (tree : Tree) : (move : Move) → Decidable (move.Granted config tree)
  | .header hash content address => inferInstanceAs (Decidable (tree.find hash = none
      → tree.Addable config.hashGenesisBlock hash content address))
  | .block hash content address _ => inferInstanceAs (Decidable ((tree.find hash = none
        → tree.Addable config.hashGenesisBlock hash content.toCBlockHeader address)
      ∧ content.vtx ≠ [] ∧ content.vtx.length ≤ maxBlockSize))
  | .activate => inferInstanceAs (Decidable True)
  | .invalidate pindex => inferInstanceAs (Decidable (pindex ∈ tree.blocks))
  | .reconsider pindex => inferInstanceAs (Decidable (pindex ∈ tree.blocks))

instance (tree : Tree) (hash : Uint256) (fRequested : Bool)
    : Decidable (tree.ParentUnmarked hash fRequested) :=
  decidable_of_iff
    (∀ p ∈ tree.find hash, tree.ignoresBlock p fRequested = false
      → ∀ q ∈ (tree.index p).pprev, tree.linked q = false → (tree.index q).nStatus.failed = false)
    ⟨fun unmarked p q known accepted child => unmarked p known accepted q child,
      fun unmarked p known accepted q child => unmarked p q known accepted child⟩

instance (tree : Tree) : (move : Move) → Decidable (move.Safe tree)
  | .block hash _ _ fRequested => inferInstanceAs (Decidable (tree.ParentUnmarked hash fRequested))
  | .reconsider pindex => inferInstanceAs (Decidable (∀ q ∈ tree.path pindex, q ≠ pindex
      → (tree.index q).nStatus.failed = true → tree.linked q = true
      → tree.notWorseThanTip q = true → q ∈ tree.setBlockIndexCandidates))
  | .header _ _ _ | .activate | .invalidate _ => inferInstanceAs (Decidable True)

instance (tree : Tree) : Decidable tree.Small :=
  inferInstanceAs (Decidable (∀ p ∈ tree.blocks,
    ((tree.path p).map fun q => (tree.index q).nTx.toNat).sum < 2 ^ 32))

variable (config : NodeConfig)

/-- The state after moves, the latest one first. -/
def stateAfter : List Move → Tree
  | [] => {}
  | move :: earlier =>
    let tree := stateAfter earlier
    match move.run config tree with
    | .ok after => after
    | .error _ => tree

def statesBefore : List Move → List (Tree × Move)
  | [] => []
  | move :: earlier => (stateAfter config earlier, move) :: statesBefore earlier

/-- Whether all moves are granted and succeed. -/
def replays : List Move → Bool
  | [] => true
  | move :: earlier =>
    replays earlier && decide (move.Granted config (stateAfter config earlier))
      && (move.run config (stateAfter config earlier)).isOk
      && decide (stateAfter config (move :: earlier)).Small

variable {config}

theorem visits_of_replays {moves} (ok : replays config moves = true)
    : Visits config (statesBefore config moves) (stateAfter config moves) := by
  induction moves with
  | nil => exact .start
  | cons move earlier ih =>
    simp only [replays, Bool.and_eq_true, decide_eq_true_eq] at ok
    obtain ⟨⟨⟨before, granted⟩, succeeds⟩, small⟩ := ok
    refine .move (ih before) granted ?_ small
    cases run : move.run config (stateAfter config earlier) with
    | error e =>
      rw [run] at succeeds
      cases succeeds
    | ok after => simp only [stateAfter, run]

end Compute

section Sample

def sampleConfig : NodeConfig := { hashGenesisBlock := numberedHash 1 }

/-- The block with the hash `n`, the child of the one before. -/
def sampleBlock (n : Nat) : CBlock where
  hashPrevBlock := numberedHash (n - 1)
  nBits := 0x207fffff
  vtx := [{ hash := .null }]

def headerMove (n : Nat) : Move := .header (numberedHash n) (sampleBlock n).toCBlockHeader n

def blockMove (n : Nat) : Move := .block (numberedHash n) (sampleBlock n) n false

/-- A block waits for its parent, which is invalidated and reconsidered before its own data
arrives.
-/
def reconsideredInTime : List Move :=
  [.activate, blockMove 2, .reconsider 2, .invalidate 2, blockMove 3, headerMove 3, headerMove 2,
    .activate, blockMove 1]

theorem losesNoBlock_iff_safe_reconsidered
    : Visits sampleConfig (statesBefore sampleConfig reconsideredInTime)
        (stateAfter sampleConfig reconsideredInTime)
      ∧ (stateAfter sampleConfig reconsideredInTime).LosesNoBlock
      ∧ ∀ visited ∈ statesBefore sampleConfig reconsideredInTime, visited.1.LosesNoBlock := by
  have ok : replays sampleConfig reconsideredInTime = true := by decide +kernel
  have visits := visits_of_replays ok
  exact ⟨visits, visits.losesNoBlock_iff_safe.mpr (by decide +kernel)⟩

/-- The data of a block arrives while its parent, of which only the header is known, is marked.
The block is not listed under its parent, so that it is never linked.
-/
def dataBelowMarked : List Move :=
  [blockMove 2, .reconsider 2, blockMove 3, .invalidate 2, headerMove 3, headerMove 2, .activate,
    blockMove 1]

/-- A block is invalidated, and its mark cleared because a child of which only the header is
known is reconsidered. It is not made a candidate again.
-/
def childReconsidered : List Move :=
  [.reconsider 3, .invalidate 2, headerMove 3, .activate, blockMove 2, .activate, blockMove 1]

theorem lost_blocks
    : (Visits sampleConfig (statesBefore sampleConfig dataBelowMarked)
          (stateAfter sampleConfig dataBelowMarked)
        ∧ 3 ∈ (stateAfter sampleConfig dataBelowMarked).blocks
        ∧ (∀ q ∈ (stateAfter sampleConfig dataBelowMarked).path 3,
          (stateAfter sampleConfig dataBelowMarked).hasData q = true
          ∧ ((stateAfter sampleConfig dataBelowMarked).index q).nStatus.failed = false)
        ∧ ((stateAfter sampleConfig dataBelowMarked).index 3).nChainTx = 0
        ∧ (stateAfter sampleConfig dataBelowMarked).mapBlocksUnlinked = [])
      ∧ Visits sampleConfig (statesBefore sampleConfig childReconsidered)
          (stateAfter sampleConfig childReconsidered)
        ∧ 2 ∈ (stateAfter sampleConfig childReconsidered).blocks
        ∧ (∀ q ∈ (stateAfter sampleConfig childReconsidered).path 2,
          (stateAfter sampleConfig childReconsidered).hasData q = true
          ∧ ((stateAfter sampleConfig childReconsidered).index q).nStatus.failed = false)
        ∧ (stateAfter sampleConfig childReconsidered).tip = some 1
        ∧ ((stateAfter sampleConfig childReconsidered).index 1).nChainWork
          < ((stateAfter sampleConfig childReconsidered).index 2).nChainWork
        ∧ 2 ∉ (stateAfter sampleConfig childReconsidered).setBlockIndexCandidates := by
  have first : replays sampleConfig dataBelowMarked = true := by decide +kernel
  have second : replays sampleConfig childReconsidered = true := by decide +kernel
  refine ⟨⟨visits_of_replays first, ?_⟩, visits_of_replays second, ?_⟩
  · decide +kernel
  · decide +kernel

end Sample

end Resistance.BlockTree

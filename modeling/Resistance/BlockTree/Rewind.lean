import Resistance.BlockTree.Switching

/-! `RewindBlockIndex` of `main.cpp`: blocks that were validated under other rules than those of
the current upgrade heights are disconnected, and removed from the block index.
-/

namespace Resistance.BlockTree

open Primitives Consensus Lib.Forest Lib.Checks BlockTree.Tree

/-- What a `CBlockIndex` notes about upgrades: `BLOCK_ACTIVATES_UPGRADE` and the branch id. -/
@[ext] structure UpgradeMark where
  activatesUpgrade : Bool := false
  nCachedBranchId : Option UInt32 := none
  deriving DecidableEq

/-- `NetworkUpgradeInfo[idx].nBranchId`. -/
def nBranchId : UpgradeIndex → UInt32
  | .sprout => 0
  | .testdummy => 0x74736554
  | .overwinter => 0x5ba81b19
  | .sapling => 0x76b809bb
  | .blossom => 0x2bb40e60

def currentEpoch (params : Params) (nHeight : Int) : UpgradeIndex :=
  ([.blossom, .sapling, .overwinter, .testdummy, .sprout].find?
    (params.networkUpgradeActive nHeight)).getD .sprout

def currentEpochBranchId (params : Params) (nHeight : Int) : UInt32 :=
  nBranchId (currentEpoch params nHeight)

-- Sprout is not counted.
def isActivationHeightForAnyUpgrade (params : Params) (nHeight : Int) : Bool :=
  0 ≤ nHeight && [UpgradeIndex.testdummy, .overwinter, .sapling, .blossom].any
    fun idx => nHeight = params.nActivationHeight idx

/-- The mark of a height by the upgrade table. -/
def tableMark (params : Params) (nHeight : Nat) : UpgradeMark :=
  ⟨isActivationHeightForAnyUpgrade params nHeight, some (currentEpochBranchId params nHeight)⟩

def sufficientlyValidated (params : Params) (nHeight : Nat) (mark : UpgradeMark) : Bool :=
  mark.activatesUpgrade == isActivationHeightForAnyUpgrade params nHeight
    && mark.nCachedBranchId == some (currentEpochBranchId params nHeight)

/-- What `RewindBlockIndex` reads beside the block tree, and how the disk answers: whether
`DisconnectTip` succeeds for a tip and the flush after it, and the last two writes.
-/
structure RewindContext where
  params : Params
  networkID : String
  mark : Pointer → UpgradeMark
  fPruneMode : Bool
  disconnects : Pointer → Bool
  flushesPeriodic : Pointer → Bool
  erases : Bool
  flushes : Bool

/-- What `RewindBlockIndex` returns, and leaves behind. -/
structure Rewound where
  returned : Bool
  clearWitnessCaches : Bool
  tree : Tree

/-- Parents of entries are entries, and so are all ancestors of candidates. -/
def Tree.IndexClosed (tree : Tree) : Prop :=
  (∀ p q, p ∈ tree.blocks → (tree.index p).pprev = some q → q ∈ tree.blocks)
  ∧ ∀ p ∈ tree.setBlockIndexCandidates, ∀ a ∈ tree.path p, a ∈ tree.blocks

namespace RewindContext

variable (context : RewindContext)

/-- `MAX_REORG_LENGTH`. -/
def maxReorgLength : Int := context.params.nCoinbaseMaturity - 1

def sufficient (tree : Tree) (pindex : Pointer) : Bool :=
  sufficientlyValidated context.params (tree.index pindex).nHeight (context.mark pindex)

/-- The loop that looks for the first block of the active chain that is not sufficiently
validated, over the blocks from the height on.
-/
def firstInsufficient (tree : Tree) : Nat → List (Option Pointer) → Nat
  | nHeight, [] => nHeight
  | nHeight, pindex :: rest =>
    if pindex.any (context.sufficient tree) then firstInsufficient tree (nHeight + 1) rest
    else nHeight

/-- This is true when we intend to do a long rewind. -/
def intendedRewind (nHeight : Nat) (hash : Uint256) : Bool :=
  context.networkID == "test" && nHeight == 252500
      && hash == numberedHash 0x0018bd16a9c6f15795a754c498d2b2083ab78f14dae44a66a8d0e90ba8464d9c
    || context.networkID == "test" && nHeight == 584000
      && hash == numberedHash 0x002e1d6daf4ab7b296e7df839dc1bee9d615583bb4bc34b1926ce78307532852

/-- If pruning, don't try rewinding past the HAVE_DATA point. -/
def pruned (tree : Tree) (pindex : Pointer) : Bool :=
  context.fPruneMode && !(tree.index pindex).nStatus.haveData

/-- `while (chainActive.Height() >= nHeight)`; every round shortens the chain. -/
def disconnectLoop (nHeight : Nat) : Nat → Tree → Bool × Tree
  | 0, tree => (true, tree)
  | fuel + 1, tree =>
    match tree.tip with
    | none => (true, tree)
    | some tip =>
      if tree.chainActive.length ≤ nHeight then (true, tree)
      else if context.pruned tree tip then (true, tree)
      else if !context.disconnects tip then (false, tree)
      else
        let tree := tree.setTip (tree.index tip).pprev
        if !context.flushesPeriodic tip then (false, tree)
        else disconnectLoop nHeight fuel tree

/-- `nHeight` after the first loop. -/
def nHeight (tree : Tree) : Nat := context.firstInsufficient tree 1 (tree.chainActive.drop 1)

def rewindLength (tree : Tree) : Int := tree.chainActive.length - 1 - context.nHeight tree

/-- `intendedRewind`. -/
def intended (tree : Tree) : Bool :=
  tree.chainActive[context.nHeight tree]?.join.any fun pindex =>
    context.intendedRewind (context.nHeight tree) (tree.index pindex).hash

def tooLong (tree : Tree) : Bool :=
  context.rewindLength tree > 0 && context.rewindLength tree > context.maxReorgLength

/-- `RewindBlockIndex` until the blocks are disconnected. -/
def rewindChain (tree : Tree) : Rewound :=
  if context.tooLong tree && !context.intended tree then ⟨false, false, tree⟩
  else
    let (ok, after) := context.disconnectLoop (context.nHeight tree) tree.chainActive.length tree
    ⟨ok, context.tooLong tree && context.intended tree, after⟩

/-- The blocks that are removed from `mapBlockIndex`. -/
def removes (tree : Tree) (pindex : Pointer) : Bool :=
  !context.sufficient tree pindex && !tree.contains pindex

/-- One round of the loop that collects the blocks to be removed. -/
def collectBlock (tree : Tree) (pindexIter : Pointer) : Tree :=
  if context.removes tree pindexIter then
    { tree.eraseCandidate pindexIter with
      pindexBestInvalid := if tree.pindexBestInvalid = some pindexIter then none
        else tree.pindexBestInvalid
      mapBlocksUnlinked := tree.mapBlocksUnlinked.filter fun entry =>
        ¬ (some entry.1 = (tree.index pindexIter).pprev ∧ entry.2 = pindexIter) }
  else if tree.connectable pindexIter then tree.insertCandidate pindexIter
  else tree

/-- `RewindBlockIndex`, but for `CheckBlockIndex`. -/
def rewindBlockIndex (tree : Tree) : Except String Rewound := do
  let rewound := context.rewindChain tree
  if !rewound.returned then return rewound
  let tree := rewound.tree.blocks.foldl context.collectBlock rewound.tree
  let tree := { tree with pindexBestHeader := tree.tip }
  if !context.erases then return ⟨false, rewound.clearWitnessCaches, tree⟩
  let tree ← { tree with
    mapBlockIndex := tree.mapBlockIndex.filter fun entry => !context.removes tree entry.2
    : Tree }.pruneBlockIndexCandidates
  return ⟨context.flushes, rewound.clearWitnessCaches, tree⟩

/-- The tip can be disconnected. -/
def CanDisconnect (tree : Tree) (tip : Pointer) : Prop :=
  context.pruned tree tip = false ∧ context.disconnects tip = true

/-- Nothing stops the loop before it is below the height. -/
def Passable (tree : Tree) (nHeight : Nat) (t : Pointer) : Prop :=
  ∀ a ∈ tree.path t, nHeight ≤ (tree.index a).nHeight
    → context.CanDisconnect tree a
      ∧ (nHeight < (tree.index a).nHeight → context.flushesPeriodic a = true)

/-- The loop ends at `t'` without a failure: it is below the height, or the first block from the
tip on whose data was pruned.
-/
structure Stopped (tree : Tree) (nHeight : Nat) (t t' : Pointer) : Prop where
  reason : (tree.index t').nHeight < nHeight ∨ context.pruned tree t' = true
  above : ∀ b ∈ tree.path t, (tree.index t').nHeight < (tree.index b).nHeight
    → context.pruned tree b = false

variable {context} {tree : Tree} {t : Pointer} {nHeight fuel : Nat}

theorem Stopped.here (formed : tree.WellFormed)
    (reason : (tree.index t).nHeight < nHeight ∨ context.pruned tree t = true)
    : context.Stopped tree nHeight t t :=
  ⟨reason, fun _ ancestor higher => absurd (formed.graded.height_le ancestor) (by omega)⟩

theorem Passable.of_lower (lower : (tree.index t).nHeight < nHeight) (formed : tree.WellFormed)
    : context.Passable tree nHeight t := by
  intro a ancestor high
  have below := formed.graded.height_le ancestor
  omega

theorem passable_child {parent} (formed : tree.WellFormed)
    (child : (tree.index t).pprev = some parent) (can : context.CanDisconnect tree t)
    : context.Passable tree nHeight t
      ↔ (nHeight < (tree.index t).nHeight → context.flushesPeriodic t = true)
        ∧ context.Passable tree nHeight parent := by
  simp only [Passable, formed.path_child child, List.forall_mem_cons]
  refine and_congr ⟨fun first above => (first above.le).2 above, fun flushes _ => ?_⟩ Iff.rfl
  exact ⟨can, flushes⟩

/-- The loop disconnects blocks from the tip down, at most to the one below the height, which it
reaches if nothing stops it.
-/
theorem disconnectLoop_ok (formed : tree.WellFormed) (active : tree.ActiveIs (some t))
    (pos : 0 < nHeight) (high : nHeight ≤ (tree.index t).nHeight + 1)
    (enough : (tree.index t).nHeight + 1 < fuel + nHeight)
    : ∃ ok chain t', context.disconnectLoop nHeight fuel tree
        = (ok, { tree with chainActive := chain })
      ∧ { tree with chainActive := chain }.ActiveIs (some t') ∧ t' ∈ tree.path t
      ∧ nHeight ≤ (tree.index t').nHeight + 1
      ∧ ((tree.index t').nHeight < nHeight ↔ context.Passable tree nHeight t)
      ∧ (ok = true → context.Stopped tree nHeight t t') := by
  induction fuel generalizing tree t with
  | zero => omega
  | succ fuel ih =>
    have self := formed.graded.self_mem t
    have length := active.length formed
    rw [disconnectLoop, active.tip formed]
    dsimp only
    split
    next low =>
      have lower : (tree.index t).nHeight < nHeight := by omega
      exact ⟨true, _, t, rfl, active, self, high, iff_of_true lower (.of_lower lower formed),
        fun _ => .here formed (.inl lower)⟩
    split
    next pruned =>
      refine ⟨true, _, t, rfl, active, self, high, iff_of_false (by omega) fun passable => ?_,
        fun _ => .here formed (.inr pruned)⟩
      cases (passable t self (by omega)).1.1.symm.trans pruned
    next kept =>
      split
      next fails =>
        refine ⟨false, _, t, rfl, active, self, high,
          iff_of_false (by omega) fun passable => ?_, nofun⟩
        rw [(passable t self (by omega)).1.2] at fails
        cases fails
      next disconnects =>
        have can : context.CanDisconnect tree t := ⟨by simpa using kept, by simpa using disconnects⟩
        cases child : (tree.index t).pprev with
        | none =>
          have root := formed.graded.root child
          omega
        | some parent =>
          have level := formed.graded.child child
          have inPath : ∀ a ∈ tree.path parent, a ∈ tree.path t :=
            fun a => formed.graded.mem_of_child child
          have lower : (tree.setTip (some parent)).ActiveIs (some parent) :=
            active.setTip formed fun p isParent => formed.closed t p active.1 (child.trans isParent)
          rw [passable_child formed child can]
          split
          next flushFails =>
            refine ⟨false, _, parent, rfl, lower, inPath parent (formed.graded.self_mem _),
              by omega, ⟨fun below => ⟨fun above => by omega, .of_lower below formed⟩, ?_⟩, nofun⟩
            rintro ⟨flushes, -⟩
            by_contra above
            rw [flushes (by omega)] at flushFails
            cases flushFails
          next flushed =>
            have same := sameLinks_chainActive tree (tree.setTip (some parent)).chainActive
            obtain ⟨ok, chain, t', run, reached, ancestor, least, passable, stopped⟩ :=
              ih (same.wellFormed formed) lower
                (show nHeight ≤ (tree.index parent).nHeight + 1 by omega)
                (show (tree.index parent).nHeight + 1 < fuel + nHeight by omega)
            refine ⟨ok, chain, t', run, reached, inPath t' ancestor, least, ?_, fun returned => ?_⟩
            · rw [and_iff_right fun _ => by simpa using flushed]
              exact passable
            · obtain ⟨reason, above⟩ := stopped returned
              refine ⟨reason, fun b mem higher => ?_⟩
              rcases formed.graded.mem_lineage.mp mem with rfl | ⟨_, isParent, further⟩
              · exact can.1
              · cases child.symm.trans isParent
                exact above b further higher

variable (context)

theorem nHeight_eq (tree : Tree)
    : context.nHeight tree = 1 + (tree.chainActive.drop 1).findIdx fun pindex =>
      !pindex.any (context.sufficient tree) := by
  suffices ∀ n chain, context.firstInsufficient tree n chain
      = n + chain.findIdx fun pindex => !pindex.any (context.sufficient tree) from this 1 _
  intro n chain
  induction chain generalizing n with
  | nil => rfl
  | cons pindex rest ih =>
    rw [firstInsufficient, List.findIdx_cons, ih]
    cases pindex.any (context.sufficient tree) with
    | true => exact Nat.add_right_comm ..
    | false => rfl

/-- The rewind is refused, or goes down to a block of the active chain. -/
theorem rewindChain_ok (formed : tree.WellFormed) (active : tree.ActiveIs (some t))
    : ∃ chain t', (context.rewindChain tree).tree = { tree with chainActive := chain }
      ∧ { tree with chainActive := chain }.ActiveIs (some t') ∧ t' ∈ tree.path t
      ∧ ((context.rewindChain tree).returned = true
        → context.Stopped tree (context.nHeight tree) t t')
      ∧ (context.tooLong tree = true ∧ context.intended tree = false
          ∧ context.rewindChain tree = ⟨false, false, tree⟩
        ∨ (context.tooLong tree = true → context.intended tree = true)
          ∧ (context.rewindChain tree).clearWitnessCaches = context.tooLong tree
          ∧ context.nHeight tree ≤ (tree.index t').nHeight + 1
          ∧ ((tree.index t').nHeight < context.nHeight tree
            ↔ context.Passable tree (context.nHeight tree) t)) := by
  have first := context.nHeight_eq tree
  have bound := first.trans_le (Nat.add_le_add_left List.findIdx_le_length 1)
  rw [List.length_drop, active.length formed] at bound
  have enough : (tree.index t).nHeight + 1 < tree.chainActive.length + context.nHeight tree := by
    rw [active.length formed]
    omega
  obtain ⟨ok, chain, t', run, reached, ancestor, least, passable, stopped⟩ :=
    disconnectLoop_ok formed active (by omega) (by omega) enough
  by_cases refused : (context.tooLong tree && !context.intended tree) = true
  · have run : context.rewindChain tree = ⟨false, false, tree⟩ := if_pos refused
    rw [Bool.and_eq_true, Bool.not_eq_true'] at refused
    exact ⟨_, t, by rw [run], active, formed.graded.self_mem t, by rw [run]; nofun,
      .inl ⟨refused.1, refused.2, run⟩⟩
  have result : context.rewindChain tree = ⟨ok, context.tooLong tree && context.intended tree,
      { tree with chainActive := chain }⟩ := by
    rw [rewindChain, if_neg refused, run]
  rw [Bool.and_eq_true, Bool.not_eq_true', not_and, Bool.not_eq_false] at refused
  refine ⟨chain, t', by rw [result], reached, ancestor, by rw [result]; exact stopped,
    .inr ⟨refused, ?_, least, passable⟩⟩
  rw [result]
  cases long : context.tooLong tree with
  | false => rfl
  | true => rw [refused long]; rfl

/-- At most `MAX_REORG_LENGTH` blocks are disconnected, or the rewind is intended and asks for the
witness caches to be cleared, unless the rewind length, which is one less than the number of
blocks that the loop disconnects, is the maximum and nothing stops the loop. A longer rewind that
is not intended is refused.
-/
theorem rewind_bounded_iff (formed : tree.WellFormed) (active : tree.ActiveIs (some t))
    (pos : 0 < context.maxReorgLength)
    : ((tree.chainActive.length - (context.rewindChain tree).tree.chainActive.length : Int)
          ≤ context.maxReorgLength
        ∨ context.intended tree = true ∧ (context.rewindChain tree).clearWitnessCaches = true
        ↔ ¬ (context.rewindLength tree = context.maxReorgLength
          ∧ context.Passable tree (context.nHeight tree) t))
      ∧ (context.rewindLength tree > context.maxReorgLength → context.intended tree = false
        → context.rewindChain tree = ⟨false, false, tree⟩) := by
  obtain ⟨chain, t', result, reached, ancestor, -, outcome⟩ := rewindChain_ok context formed active
  have long : context.tooLong tree = true
      ↔ context.rewindLength tree > context.maxReorgLength := by
    simp only [tooLong, Bool.and_eq_true, decide_eq_true_eq]
    omega
  have same := sameLinks_chainActive tree chain
  have after : (context.rewindChain tree).tree.chainActive.length
      = (tree.index t').nHeight + 1 := by
    rw [result]
    exact reached.length (same.wellFormed formed)
  have before := active.length formed
  have lengthIs : context.rewindLength tree
      = (tree.index t).nHeight - context.nHeight tree := by
    rw [rewindLength]
    omega
  rcases outcome with ⟨tooLong, unintended, run⟩ | ⟨allowed, clears, least, passable⟩
  · refine ⟨iff_of_true (.inl ?_) fun refuted => ?_, fun _ _ => run⟩
    · rw [run]
      dsimp only
      omega
    · have := long.mp tooLong
      omega
  · refine ⟨?_, fun isLong unintended => ?_⟩
    · rw [clears, ← passable]
      cases isLong : context.tooLong tree with
      | true =>
        have := long.mp isLong
        exact iff_of_true (.inr ⟨allowed isLong, rfl⟩) fun refuted => by omega
      | false =>
        rw [← Bool.not_eq_true, long] at isLong
        simp only [Bool.false_eq_true, and_false, or_false]
        omega
    · rw [allowed (long.mpr isLong)] at unintended
      cases unintended

/-- The blocks have been collected: those that are removed are no candidates. -/
structure Collected (tree after : Tree) (blocks : List Pointer) : Prop where
  index : after.index = tree.index
  mapBlockIndex : after.mapBlockIndex = tree.mapBlockIndex
  chainActive : after.chainActive = tree.chainActive
  candidates : ∀ p ∈ after.setBlockIndexCandidates,
    (p ∈ tree.setBlockIndexCandidates ∨ p ∈ blocks)
    ∧ (p ∈ blocks → context.removes tree p = false)

theorem removes_congr {after} (index : after.index = tree.index)
    (chain : after.chainActive = tree.chainActive) (p : Pointer)
    : context.removes after p = context.removes tree p := by
  rw [removes, sufficient, contains, index, chain, removes, sufficient, contains]

theorem collectBlock_collected (tree : Tree) (p : Pointer)
    : context.Collected tree (context.collectBlock tree p) [p] := by
  unfold collectBlock
  split
  next =>
    refine ⟨rfl, rfl, rfl, fun q candidate => ?_⟩
    obtain ⟨mem, ne⟩ := List.mem_filter.mp candidate
    exact ⟨.inl mem, fun same => by simp_all⟩
  next stays =>
    have notRemoved : ∀ q ∈ [p], context.removes tree q = false := by simpa using stays
    split
    · refine ⟨rfl, rfl, rfl, fun q candidate => ⟨?_, notRemoved q⟩⟩
      exact (List.mem_insert_iff.mp candidate).symm.imp id List.mem_singleton.mpr
    · exact ⟨rfl, rfl, rfl, fun q candidate => ⟨.inl candidate, notRemoved q⟩⟩

theorem collectBlocks_collected (tree : Tree) (blocks : List Pointer)
    : context.Collected tree (blocks.foldl context.collectBlock tree) blocks := by
  induction blocks generalizing tree with
  | nil => exact ⟨rfl, rfl, rfl, fun p candidate => ⟨.inl candidate, nofun⟩⟩
  | cons head blocks ih =>
    have first := context.collectBlock_collected tree head
    have rest := ih (context.collectBlock tree head)
    refine ⟨rest.index.trans first.index, rest.mapBlockIndex.trans first.mapBlockIndex,
      rest.chainActive.trans first.chainActive, fun p candidate => ?_⟩
    obtain ⟨before, later⟩ := rest.candidates p candidate
    rw [context.removes_congr first.index first.chainActive] at later
    grind [first.candidates p]

theorem mem_blocks_filter {after blocks} (collected : context.Collected tree after blocks)
    (p : Pointer)
    : p ∈ (after.mapBlockIndex.filter fun entry => !context.removes after entry.2).map Prod.snd
      ↔ p ∈ tree.blocks ∧ context.removes tree p = false := by
  rw [collected.mapBlockIndex, Tree.blocks]
  simp only [context.removes_congr collected.index collected.chainActive]
  simp only [List.mem_map, List.mem_filter]
  grind

/-- A block of the active chain that is not disconnected, whatever its marks say: the genesis block,
or one at or below a block whose data was pruned.
-/
def Fixed (tree : Tree) (t q : Pointer) : Prop :=
  q ∈ tree.path t ∧ ((tree.index q).nHeight = 0
    ∨ ∃ b ∈ tree.path t, q ∈ tree.path b ∧ context.pruned tree b = true)

/-- A block that is marked as the upgrade table says has a parent that is, or that is fixed. -/
def MarksDescend (tree : Tree) (t : Pointer) : Prop :=
  ∀ p q, p ∈ tree.blocks → (tree.index p).pprev = some q
    → context.mark p = tableMark context.params (tree.index p).nHeight
    → context.mark q = tableMark context.params (tree.index q).nHeight ∨ context.Fixed tree t q

variable {context}

theorem sufficient_iff {p}
    : context.sufficient tree p = true
      ↔ context.mark p = tableMark context.params (tree.index p).nHeight := by
  simp only [sufficient, sufficientlyValidated, Bool.and_eq_true, beq_iff_eq, tableMark,
    UpgradeMark.ext_iff]

/-- An insufficiently validated block is still in the active chain exactly if it is fixed there. -/
theorem Stopped.fixed_iff {t' q} (stopped : context.Stopped tree (context.nHeight tree) t t')
    (formed : tree.WellFormed) (active : tree.ActiveIs (some t)) (below : t' ∈ tree.path t)
    (insufficient : context.sufficient tree q = false)
    : q ∈ tree.path t' ↔ context.Fixed tree t q := by
  constructor
  · intro mem
    have inChain := formed.graded.ancestor_trans below mem
    refine ⟨inChain, or_iff_not_imp_left.mpr fun pos => ⟨t', below, mem, ?_⟩⟩
    refine stopped.reason.resolve_left fun lower => ?_
    have entry : (tree.chainActive.drop 1)[(tree.index q).nHeight - 1]? = some (some q) := by
      rw [List.getElem?_drop, active.2]
      exact (chainOf_getElem? formed).mpr ⟨inChain, by omega⟩
    have level := formed.graded.height_le mem
    rw [nHeight_eq, Nat.lt_one_add_iff] at lower
    have early : (tree.index q).nHeight - 1 < (tree.index t').nHeight := by omega
    have passed := List.not_of_lt_findIdx (early.trans_le lower)
    rw [(List.getElem?_eq_some_iff.mp entry).2] at passed
    simp [insufficient] at passed
  · rintro ⟨inChain, kept⟩
    refine formed.graded.mem_of_height_le inChain below ?_
    rcases kept with genesis | ⟨b, ancestor, mem, pruned⟩
    · exact genesis.trans_le (Nat.zero_le _)
    · by_contra higher
      have level := formed.graded.height_le mem
      cases (stopped.above b ancestor (by omega)).symm.trans pruned

/-- What is left in the block index are the sufficiently validated blocks and the active chain, and
candidates are among them.
-/
theorem rewindBlockIndex_ok {rewound} (formed : tree.WellFormed) (active : tree.ActiveIs (some t))
    (known : ∀ p ∈ tree.setBlockIndexCandidates, p ∈ tree.blocks)
    (run : context.rewindBlockIndex tree = .ok rewound) (returned : rewound.returned = true)
    : ∃ t' ∈ tree.path t, context.Stopped tree (context.nHeight tree) t t'
      ∧ rewound.tree.index = tree.index
      ∧ (∀ p, p ∈ rewound.tree.blocks
        ↔ p ∈ tree.blocks ∧ (context.sufficient tree p = true ∨ p ∈ tree.path t'))
      ∧ ∀ p ∈ rewound.tree.setBlockIndexCandidates, p ∈ rewound.tree.blocks := by
  obtain ⟨chain, t', result, reached, below, stopped, -⟩ := rewindChain_ok context formed active
  have collected := context.collectBlocks_collected (context.rewindChain tree).tree
    (context.rewindChain tree).tree.blocks
  simp only [rewindBlockIndex] at run
  split at run
  next failed =>
    cases run
    simp [returned] at failed
  next going =>
    split at run
    next =>
      cases run
      cases returned
    next =>
      obtain ⟨pruned, prune, done⟩ := bind_ok.mp run
      cases done
      obtain ⟨tip, -, rfl⟩ := pruneBlockIndexCandidates_ok prune
      have remaining : ∀ p, p ∈ (context.rewindChain tree).tree.blocks
            ∧ context.removes (context.rewindChain tree).tree p = false
          ↔ p ∈ tree.blocks ∧ (context.sufficient tree p = true ∨ p ∈ tree.path t') := by
        intro p
        have same := sameLinks_chainActive tree chain
        rw [removes, Bool.and_eq_false_iff, Bool.not_eq_false', Bool.not_eq_false', result,
          reached.contains_iff (same.wellFormed formed)]
        rfl
      have left := fun p => (mem_blocks_filter context collected p).trans (remaining p)
      refine ⟨t', below, stopped (by simpa using going), collected.index.trans (by rw [result]),
        left, fun p candidate => ?_⟩
      obtain ⟨before, kept⟩ := collected.candidates p (List.mem_filter.mp candidate).1
      have mem : p ∈ (context.rewindChain tree).tree.blocks :=
        before.elim (fun was => by rw [result] at was ⊢; exact known p was) id
      exact (left p).mpr ((remaining p).mp ⟨mem, kept mem⟩)

/-- The block index is closed after the rewind exactly if every block that is marked as the current
upgrade heights say has a parent that is marked so, or that is fixed in the active chain.
-/
theorem rewind_closed_iff {rewound : Rewound} (formed : tree.WellFormed)
    (active : tree.ActiveIs (some t)) (known : ∀ p ∈ tree.setBlockIndexCandidates, p ∈ tree.blocks)
    (run : context.rewindBlockIndex tree = .ok rewound) (returned : rewound.returned = true)
    : rewound.tree.IndexClosed ↔ context.MarksDescend tree t := by
  obtain ⟨t', below, stopped, index, left, candidates⟩ :=
    rewindBlockIndex_ok formed active known run returned
  simp only [IndexClosed, index, path, MarksDescend, ← sufficient_iff]
  constructor
  · intro closed p q mem child sufficient
    obtain ⟨-, stays⟩ := (left q).mp (closed.1 p q ((left p).mpr ⟨mem, .inl sufficient⟩) child)
    refine or_iff_not_imp_left.mpr fun insufficient => ?_
    rw [← stopped.fixed_iff formed active below (by simpa using insufficient)]
    exact stays.resolve_left insufficient
  intro descend
  have parents : ∀ p q, p ∈ rewound.tree.blocks → (tree.index p).pprev = some q
      → q ∈ rewound.tree.blocks := by
    intro p q mem child
    obtain ⟨mem, stays⟩ := (left p).mp mem
    refine (left q).mpr ⟨formed.closed p q mem child,
      or_iff_not_imp_left.mpr fun insufficient => ?_⟩
    rcases stays with sufficient | inChain
    · rw [stopped.fixed_iff formed active below (by simpa using insufficient)]
      exact (descend p q mem child sufficient).resolve_left insufficient
    · have parent : q ∈ tree.path p := formed.graded.mem_of_child child (formed.graded.self_mem q)
      exact formed.graded.ancestor_trans inChain parent
  refine ⟨parents, fun p candidate => ?_⟩
  exact fun a => formed.graded.mem_of_closed parents (candidates p candidate)

/-- Overwinter now activates at the first height. -/
def earlierOverwinter (nCoinbaseMaturity : Int) : RewindContext where
  params := { Params.main with
    nCoinbaseMaturity
    nActivationHeight := fun
      | .sprout => alwaysActive
      | .overwinter => 1
      | _ => noActivationHeight }
  networkID := "regtest"
  mark := fun
    | 2 => { nCachedBranchId := some 0 }
    | 3 => { activatesUpgrade := true, nCachedBranchId := some 0x5ba81b19 }
    | 4 => { nCachedBranchId := some 0x5ba81b19 }
    | _ => { nCachedBranchId := some 0 }
  fPruneMode := false
  disconnects _ := true
  flushesPeriodic _ := true
  erases := true
  flushes := true

/-- A chain of four blocks, which were connected when Overwinter activated at the second height. -/
def overwinterChain : Tree :=
  { ofTable [row 1 none none 0 1, row 2 (some 1) (some 1) 1 2, row 3 (some 2) (some 1) 2 3,
      row 4 (some 3) (some 1) 3 4] with
    setBlockIndexCandidates := [4]
    chainActive := [some 1, some 2, some 3, some 4] }

theorem overwinterChain_formed : overwinterChain.WellFormed :=
  wellFormed_of_table rfl rfl (by decide) (by decide)

theorem overwinterChain_active : overwinterChain.ActiveIs (some 4) := ⟨by decide, by decide⟩

theorem rewind_bounded_iff_short
    : let rewound := (earlierOverwinter 100).rewindChain overwinterChain
      (overwinterChain.chainActive.length - rewound.tree.chainActive.length : Int)
          ≤ (earlierOverwinter 100).maxReorgLength
        ∨ (earlierOverwinter 100).intended overwinterChain = true
          ∧ rewound.clearWitnessCaches = true :=
  (rewind_bounded_iff _ overwinterChain_formed overwinterChain_active (by decide)).1.mpr
    fun long => absurd long.1 (by decide +kernel)

/-- Three blocks are disconnected where the maximum is two. -/
theorem rewind_one_too_many
    : (earlierOverwinter 3).maxReorgLength = 2
      ∧ (earlierOverwinter 3).intended overwinterChain = false
      ∧ ((earlierOverwinter 3).rewindChain overwinterChain).returned = true
      ∧ ((earlierOverwinter 3).rewindChain overwinterChain).tree.chainActive = [some 1] := by
  decide +kernel

/-- Overwinter now activates at the third height. -/
def laterOverwinter : RewindContext :=
  { earlierOverwinter 100 with
    params.nActivationHeight := fun
      | .sprout => alwaysActive
      | .overwinter => 3
      | _ => noActivationHeight }

/-- Two blocks are removed, and the index is closed. -/
theorem rewind_closed_iff_later
    : ∃ rewound, laterOverwinter.rewindBlockIndex overwinterChain = .ok rewound
      ∧ rewound.tree.blocks = [1, 2] ∧ rewound.tree.IndexClosed := by
  have descends : laterOverwinter.MarksDescend overwinterChain 4 := by
    intro p q mem child marked
    have mem : p ∈ [1, 2, 3, 4] := mem
    simp only [List.mem_cons, List.not_mem_nil, or_false] at mem
    obtain rfl | rfl | rfl | rfl := mem
    · cases child
    · cases child
      exact .inr ⟨by decide, .inl rfl⟩
    · exact absurd marked (by decide)
    · exact absurd marked (by decide)
  exact ⟨_, rfl, by decide +kernel, (rewind_closed_iff overwinterChain_formed
    overwinterChain_active (by decide) (by rfl) rfl).mpr descends⟩

/-- The last block stays and is a candidate, its parent is removed. -/
theorem rewind_removes_parent
    : ∃ rewound, (earlierOverwinter 100).rewindBlockIndex overwinterChain = .ok rewound
      ∧ rewound.returned = true ∧ rewound.tree.blocks = [1, 4]
      ∧ (rewound.tree.index 4).pprev = some 3 ∧ 4 ∈ rewound.tree.setBlockIndexCandidates :=
  ⟨_, rfl, rfl, by decide +kernel, rfl, by decide +kernel⟩

end RewindContext

end Resistance.BlockTree

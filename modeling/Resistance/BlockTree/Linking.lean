import Resistance.BlockTree.Index

/-! What `ReceivedBlockTransactions` keeps: every block whose ancestors have data is linked,
with the totals of its chain, and every other block with data waits in `mapBlocksUnlinked`.
-/

namespace Resistance.BlockTree

open List Primitives Lib.Forest Lib.Checks CBlockIndex

namespace Tree

/-! One round. -/

/-- The entry of a linked block, whose Sprout total may come from the checkpoint. -/
def linkedEntry (tree : Tree) (pindex : Pointer) (sprout : Option CAmount) : CBlockIndex :=
  {
    (tree.index pindex).withTotals (tree.prev pindex) with
    nChainSproutValue := sprout
    nSequenceId := tree.nBlockSequenceId
  }

/-- A round changes the linked block, the sequence counter and the candidates. -/
structure LinkStep (tree : Tree) (pindex : Pointer) (after : Tree) : Prop where
  entry : ∃ sprout, after.index pindex = tree.linkedEntry pindex sprout
    ∧ ∀ value, ((tree.index pindex).withTotals (tree.prev pindex)).nChainSproutValue = some value
      → sprout = some value
  other : ∀ p, p ≠ pindex → after.index p = tree.index p
  mapBlockIndex : after.mapBlockIndex = tree.mapBlockIndex
  unlinked : after.mapBlocksUnlinked = tree.mapBlocksUnlinked
  chainActive : after.chainActive = tree.chainActive
  candidates : ∀ p, p ∈ after.setBlockIndexCandidates
    ↔ p ∈ tree.setBlockIndexCandidates ∨ (p = pindex ∧ after.notWorseThanTip pindex = true)

theorem fallback_ok {checkpoint : PoolCheckpoint} {pindex entry}
    (run : checkpoint.fallbackSproutValuePoolBalance pindex = .ok entry)
    : ∃ sprout, entry = { pindex with nChainSproutValue := sprout }
      ∧ ∀ value, pindex.nChainSproutValue = some value → sprout = some value := by
  unfold PoolCheckpoint.fallbackSproutValuePoolBalance at run
  cases known : pindex.nChainSproutValue with
  | none =>
    simp only [known] at run
    split_ifs at run <;> cases run <;> exact ⟨_, rfl, nofun⟩
  | some value =>
    simp only [known] at run
    split_ifs at run <;> cases run <;> exact ⟨_, rfl, fun _ same => known.trans same⟩

theorem linkBlock_ok {checkpoint} {tree after pindex}
    (run : tree.linkBlock checkpoint pindex = .ok after)
    : LinkStep tree pindex after := by
  obtain ⟨entry, fallback, result⟩ := bind_ok.mp run
  obtain ⟨sprout, rfl, keeps⟩ := fallback_ok fallback
  rw [pure_ok] at result
  split at result
  all_goals
    subst result
    refine ⟨⟨sprout, if_pos rfl, keeps⟩, fun p ne => if_neg ne, rfl, rfl, rfl, fun p => ?_⟩
  next good =>
    have same : ∀ t : Tree, (t.insertCandidate pindex).notWorseThanTip pindex
        = t.notWorseThanTip pindex := fun _ => rfl
    rw [same, good]
    simp [insertCandidate, modify, or_comm]
  next bad =>
    simp only [bad, Bool.false_eq_true, and_false, or_false]
    rfl

end Tree

/-- The entry without the fields that linking computes. -/
def CBlockIndex.stored (entry : CBlockIndex) : CBlockIndex :=
  {
    entry with
    nChainTx := 0
    nChainSproutValue := none
    nChainSaplingValue := none
    nSequenceId := 0
  }

namespace Tree

/-- The same block tree, with the same data stored of its blocks. -/
structure SameBlocks (tree after : Tree) : Prop where
  mapBlockIndex : after.mapBlockIndex = tree.mapBlockIndex
  stored : ∀ p, (after.index p).stored = (tree.index p).stored

section Static

variable {tree after : Tree}

theorem SameBlocks.refl (tree : Tree) : SameBlocks tree tree :=
  ⟨rfl, fun _ => rfl⟩

theorem SameBlocks.trans {middle} (first : SameBlocks tree middle)
    (second : SameBlocks middle after)
    : SameBlocks tree after :=
  ⟨second.mapBlockIndex.trans first.mapBlockIndex,
    fun p => (second.stored p).trans (first.stored p)⟩

section

variable (same : SameBlocks tree after)
include same

theorem SameBlocks.field {β} (f : CBlockIndex → β) (p : Pointer)
    (static : ∀ entry : CBlockIndex, f entry.stored = f entry := by intro; rfl)
    : f (after.index p) = f (tree.index p) := by
  rw [← static, same.stored, static]

theorem SameBlocks.blocks : after.blocks = tree.blocks := by
  rw [Tree.blocks, same.mapBlockIndex, Tree.blocks]

theorem SameBlocks.path (p : Pointer)
    : after.path p = tree.path p := by
  rw [Tree.path, same.field (·.nHeight), funext (same.field (·.pprev)), Tree.path]

end

theorem LinkStep.sameBlocks {pindex} (step : LinkStep tree pindex after)
    : SameBlocks tree after := by
  refine ⟨step.mapBlockIndex, fun p => ?_⟩
  by_cases same : p = pindex
  · subst same
    obtain ⟨sprout, entry, _⟩ := step.entry
    rw [entry, linkedEntry]
    cases tree.prev p <;> rfl
  · rw [step.other p same]

theorem LinkStep.erased {p} (step : LinkStep tree p after)
    : SameBlocks tree (after.eraseUnlinked p) :=
  ⟨step.mapBlockIndex, step.sameBlocks.stored⟩

end Static

/-! The invariant of the loop. -/

def hasData (tree : Tree) (p : Pointer) : Bool := (tree.index p).nStatus.haveData

/-- `nChainTx` signals that all ancestors have been received. -/
def linked (tree : Tree) (p : Pointer) : Bool := (tree.index p).nChainTx ≠ 0

/-- A total of the predecessor, which is zero before the genesis block. -/
def totalBefore (tree : Tree) (total : CBlockIndex → Option CAmount) (p : Pointer)
    : Option CAmount :=
  match tree.prev p with
  | some prev => total prev
  | none => some 0

def txBefore (tree : Tree) (p : Pointer) : UInt32 :=
  match tree.prev p with
  | some prev => prev.nChainTx
  | none => 0

/-- The totals of a block continue those of its predecessor. -/
structure Totals (tree : Tree) (p : Pointer) : Prop where
  tx : (tree.index p).nChainTx = tree.txBefore p + (tree.index p).nTx
  sprout : ∃ before value, tree.totalBefore CBlockIndex.nChainSproutValue p = some before
    ∧ (tree.index p).nSproutValue = some value
    ∧ (tree.index p).nChainSproutValue = some (before + value)
  sapling : ∃ before, tree.totalBefore CBlockIndex.nChainSaplingValue p = some before
    ∧ (tree.index p).nChainSaplingValue = some (before + (tree.index p).nSaplingValue)

/-- What holds between two rounds. A block with data is linked, or queued because its parent
is linked, or listed under a parent that is not.
-/
structure Linking (tree : Tree) (queue : List Pointer) : Prop where
  data : ∀ p ∈ tree.blocks, tree.linked p = true → tree.hasData p = true
  parent : ∀ p ∈ tree.blocks, tree.linked p = true → tree.parentLinked p = true
  totals : ∀ p ∈ tree.blocks, tree.linked p = true → tree.Totals p
  waiting : ∀ p ∈ tree.blocks, tree.hasData p = true → tree.linked p = false
    → p ∈ queue ∨ ∃ q, (tree.index p).pprev = some q ∧ (q, p) ∈ tree.mapBlocksUnlinked
  unlinked : ∀ q p, (q, p) ∈ tree.mapBlocksUnlinked → p ∈ tree.blocks
    ∧ (tree.index p).pprev = some q ∧ tree.hasData p = true ∧ tree.linked p = false
    ∧ tree.linked q = false
  ready : ∀ p ∈ queue, p ∈ tree.blocks ∧ tree.hasData p = true ∧ tree.linked p = false
    ∧ tree.parentLinked p = true
  distinct : (queue ++ tree.mapBlocksUnlinked.map Prod.snd).Nodup
  blank : ∀ p ∈ tree.blocks, tree.linked p = false
    → (tree.index p).nChainSproutValue = none ∧ (tree.index p).nChainSaplingValue = none

/-- Parents come before children, all in `mapBlockIndex`, which has no entry twice. -/
structure WellFormed (tree : Tree) : Prop where
  graded : Graded (fun p => (tree.index p).pprev) (fun p => (tree.index p).nHeight)
  closed : ∀ p q, p ∈ tree.blocks → (tree.index p).pprev = some q → q ∈ tree.blocks
  distinct : tree.blocks.Nodup
  hashes : ∀ hash p, tree.mapBlockIndex.lookup hash = some p → (tree.index p).hash = hash
  unused : ∀ p, p ∉ tree.blocks → tree.index p = {}

/-- Blocks with data have transactions and a known change of the Sprout pool, and no chain of
them has more transactions than `nChainTx` can count.
-/
structure Countable (tree : Tree) : Prop where
  tx : ∀ p ∈ tree.blocks, tree.hasData p = true → (tree.index p).nTx ≠ 0
  sprout : ∀ p ∈ tree.blocks, tree.hasData p = true → ∃ value,
    (tree.index p).nSproutValue = some value
  bound : ∀ p ∈ tree.blocks,
    ((tree.path p).map fun q => (tree.index q).nTx.toNat).sum < 2 ^ 32

section Invariant

variable {tree after : Tree} {queue : List Pointer} {p q : Pointer}

theorem WellFormed.path_root (formed : tree.WellFormed) (root : (tree.index p).pprev = none)
    : tree.path p = [p] :=
  formed.graded.lineage_root root

theorem WellFormed.path_child (formed : tree.WellFormed) (child : (tree.index p).pprev = some q)
    : tree.path p = p :: tree.path q :=
  formed.graded.lineage_child child

theorem WellFormed.path_mem (formed : tree.WellFormed) (mem : p ∈ tree.blocks)
    (ancestor : q ∈ tree.path p)
    : q ∈ tree.blocks :=
  formed.graded.mem_of_closed formed.closed mem ancestor

theorem ne_of_pprev (formed : tree.WellFormed) (child : (tree.index p).pprev = some q)
    : q ≠ p := by
  rintro rfl
  exact absurd (formed.graded.child child) (Nat.ne_of_lt (Nat.lt_succ_self _))

theorem prev_root {p} (root : (tree.index p).pprev = none) : tree.prev p = none := by
  rw [prev, root, Option.map_none]

theorem prev_child (child : (tree.index p).pprev = some q)
    : tree.prev p = some (tree.index q) := by
  rw [prev, child, Option.map_some]

theorem txBefore_root (root : (tree.index p).pprev = none)
    : tree.txBefore p = 0 := by
  rw [txBefore, prev_root root]

theorem txBefore_child (child : (tree.index p).pprev = some q)
    : tree.txBefore p = (tree.index q).nChainTx := by
  rw [txBefore, prev_child child]

theorem totalBefore_root {total} (root : (tree.index p).pprev = none)
    : tree.totalBefore total p = some 0 := by
  rw [totalBefore, prev_root root]

theorem totalBefore_child {total} (child : (tree.index p).pprev = some q)
    : tree.totalBefore total p = total (tree.index q) := by
  rw [totalBefore, prev_child child]

theorem parentLinked_iff
    : tree.parentLinked p = true ↔ ∀ q, (tree.index p).pprev = some q → tree.linked q = true := by
  cases child : (tree.index p).pprev with
  | none => simp [parentLinked, prev_root child]
  | some q => simp [parentLinked, prev_child child, linked]

/-- A block that is not linked is no parent of a linked one. -/
theorem Linking.ne_of_linked (linking : tree.Linking queue) {r} (inside : q ∈ tree.blocks)
    (isLinked : tree.linked q = true) (child : (tree.index q).pprev = some r)
    (notLinked : tree.linked p = false)
    : r ≠ p := by
  rintro rfl
  cases notLinked.symm.trans (parentLinked_iff.mp (linking.parent q inside isLinked) r child)

section

variable (linking : tree.Linking queue) (formed : tree.WellFormed) (countable : tree.Countable)
include linking formed countable

/-- The number of transactions of a linked block's chain. -/
theorem Linking.nChainTx_eq (mem : p ∈ tree.blocks) (isLinked : tree.linked p = true)
    : (tree.index p).nChainTx.toNat
      = ((tree.path p).map fun q => (tree.index q).nTx.toNat).sum := by
  induction p using formed.graded.induction with
  | step p ih =>
    have bound := countable.bound p mem
    have total := (linking.totals p mem isLinked).tx
    cases child : (tree.index p).pprev with
    | none =>
      rw [total, txBefore_root child, formed.path_root child]
      simp
    | some q =>
      have parent := parentLinked_iff.mp (linking.parent p mem isLinked) q child
      have before := ih q child (formed.closed p q mem child) parent
      rw [formed.path_child child, map_cons, sum_cons, ← before] at bound ⊢
      rw [total, txBefore_child child, UInt32.toNat_add, Nat.mod_eq_of_lt, Nat.add_comm]
      rwa [Nat.add_comm]

/-- A block that is ready to be linked gets a number of transactions other than zero. -/
theorem Linking.nChainTx_ne_zero (queued : p ∈ queue)
    : tree.txBefore p + (tree.index p).nTx ≠ 0 := by
  obtain ⟨mem, data, -, parent⟩ := linking.ready p queued
  have nonzero : (tree.index p).nTx.toNat ≠ 0 := fun zero =>
    countable.tx p mem data (UInt32.toNat_inj.mp zero)
  have bound := countable.bound p mem
  cases child : (tree.index p).pprev with
  | none =>
    rw [txBefore_root child, UInt32.zero_add]
    exact countable.tx p mem data
  | some q =>
    have isLinked := parentLinked_iff.mp parent q child
    have before := linking.nChainTx_eq formed countable (formed.closed p q mem child) isLinked
    rw [formed.path_child child, map_cons, sum_cons] at bound
    rw [txBefore_child child]
    intro zero
    have sum := congrArg UInt32.toNat zero
    rw [UInt32.toNat_add, Nat.mod_eq_of_lt (by omega)] at sum
    exact nonzero (Nat.eq_zero_of_add_eq_zero_left sum)

end

theorem WellFormed.of_links (formed : tree.WellFormed)
    (map : after.mapBlockIndex = tree.mapBlockIndex)
    (links : ∀ p, (after.index p).pprev = (tree.index p).pprev
      ∧ (after.index p).nHeight = (tree.index p).nHeight
      ∧ (after.index p).hash = (tree.index p).hash)
    (unused : ∀ p, p ∉ tree.blocks → after.index p = {})
    : after.WellFormed := by
  have blocks : after.blocks = tree.blocks := by rw [Tree.blocks, map, Tree.blocks]
  refine ⟨?_, ?_, blocks ▸ formed.distinct, ?_, blocks ▸ unused⟩
  · simpa only [links] using formed.graded
  · simpa only [blocks, links] using formed.closed
  · simpa only [map, links] using formed.hashes

section

variable (same : SameBlocks tree after)
include same

theorem SameBlocks.wellFormed (formed : tree.WellFormed)
    (unused : ∀ p, p ∉ tree.blocks → after.index p = {})
    : after.WellFormed :=
  formed.of_links same.mapBlockIndex
    (fun p => ⟨same.field (·.pprev) p, same.field (·.nHeight) p, same.field (·.hash) p⟩) unused

theorem SameBlocks.hasData (p : Pointer)
    : after.hasData p = tree.hasData p := by
  rw [Tree.hasData, same.field (·.nStatus), Tree.hasData]

theorem SameBlocks.countable (countable : tree.Countable)
    : after.Countable where
  tx := by simpa only [same.blocks, same.hasData, same.field (·.nTx)] using countable.tx
  sprout := by
    simpa only [same.blocks, same.hasData, same.field (·.nSproutValue)] using countable.sprout
  bound := by simpa only [same.blocks, same.path, same.field (·.nTx)] using countable.bound

end

/-- Totals are known before a block whose parent is linked. -/
theorem Linking.totalBefore_some (linking : tree.Linking queue) (formed : tree.WellFormed)
    (mem : p ∈ tree.blocks) (parent : tree.parentLinked p = true)
    : (∃ before, tree.totalBefore nChainSproutValue p = some before)
      ∧ ∃ before, tree.totalBefore nChainSaplingValue p = some before := by
  cases child : (tree.index p).pprev with
  | none => exact ⟨⟨0, totalBefore_root child⟩, ⟨0, totalBefore_root child⟩⟩
  | some q =>
    have isLinked := parentLinked_iff.mp parent q child
    have totals := linking.totals q (formed.closed p q mem child) isLinked
    obtain ⟨before, value, -, -, sprout⟩ := totals.sprout
    obtain ⟨_, -, sapling⟩ := totals.sapling
    exact ⟨⟨_, (totalBefore_child child).trans sprout⟩,
      ⟨_, (totalBefore_child child).trans sapling⟩⟩

theorem withTotals_nChainTx (tree : Tree) (p : Pointer)
    : ((tree.index p).withTotals (tree.prev p)).nChainTx
      = tree.txBefore p + (tree.index p).nTx := by
  rw [txBefore]
  cases tree.prev p with
  | none => exact (UInt32.zero_add _).symm
  | some prev => rfl

/-- A block continues the values that the pools have before it. -/
theorem withTotals_values {sprout value sapling}
    (sproutBefore : tree.totalBefore nChainSproutValue p = some sprout)
    (change : (tree.index p).nSproutValue = some value)
    (saplingBefore : tree.totalBefore nChainSaplingValue p = some sapling)
    : ((tree.index p).withTotals (tree.prev p)).nChainSproutValue = some (sprout + value)
      ∧ ((tree.index p).withTotals (tree.prev p)).nChainSaplingValue
        = some (sapling + (tree.index p).nSaplingValue) := by
  rw [totalBefore] at sproutBefore saplingBefore
  cases isPrev : tree.prev p with
  | none =>
    rw [isPrev] at sproutBefore saplingBefore
    cases sproutBefore
    cases saplingBefore
    rw [Int64.zero_add, Int64.zero_add]
    exact ⟨change, rfl⟩
  | some prev =>
    rw [isPrev] at sproutBefore saplingBefore
    simp [withTotals, sproutBefore, saplingBefore, change]

/-- The predecessor of a block is what it was if its entry is. -/
theorem prev_eq (pprev : (after.index p).pprev = (tree.index p).pprev)
    (parent : ∀ q, (tree.index p).pprev = some q → after.index q = tree.index q)
    : after.prev p = tree.prev p := by
  rw [prev, pprev]
  exact Option.map_congr parent

theorem Totals.congr (totals : tree.Totals p) (index : after.index p = tree.index p)
    (parent : ∀ q, (tree.index p).pprev = some q → after.index q = tree.index q)
    : after.Totals p := by
  have prev := prev_eq (congrArg pprev index) parent
  obtain ⟨tx, sprout, sapling⟩ := totals
  constructor
  · rwa [index, txBefore, prev]
  · rwa [index, totalBefore, prev]
  · rwa [index, totalBefore, prev]

section Round

variable (step : LinkStep tree p after)

include step

theorem LinkStep.linked_iff (nonzero : tree.txBefore p + (tree.index p).nTx ≠ 0) (q : Pointer)
    : after.linked q = true ↔ q = p ∨ tree.linked q = true := by
  by_cases same : q = p
  · subst same
    obtain ⟨sprout, entry, -⟩ := step.entry
    have total : (after.index q).nChainTx = tree.txBefore q + (tree.index q).nTx := by
      rw [entry, ← withTotals_nChainTx]
      rfl
    simp [linked, total, nonzero]
  · rw [linked, step.other q same]
    simp [same, linked]

/-- The linked block continues the totals of its parent. -/
theorem LinkStep.totals_self (linking : tree.Linking queue) (formed : tree.WellFormed)
    (countable : tree.Countable) (mem : p ∈ tree.blocks) (data : tree.hasData p = true)
    (parent : tree.parentLinked p = true)
    : after.Totals p := by
  obtain ⟨sprout, entry, keeps⟩ := step.entry
  obtain ⟨⟨sproutBefore, sproutKnown⟩, ⟨saplingBefore, saplingKnown⟩⟩ :=
    linking.totalBefore_some formed mem parent
  obtain ⟨value, change⟩ := countable.sprout p mem data
  have prev : after.prev p = tree.prev p :=
    prev_eq (step.sameBlocks.field (·.pprev) p) fun q child =>
      step.other q (ne_of_pprev formed child)
  obtain ⟨sproutTotal, saplingTotal⟩ := withTotals_values sproutKnown change saplingKnown
  have stored := step.sameBlocks
  refine ⟨?_, ⟨sproutBefore, value, ?_, ?_, ?_⟩, saplingBefore, ?_, ?_⟩
  · rw [txBefore, prev, stored.field (·.nTx), entry]
    exact withTotals_nChainTx tree p
  · rwa [totalBefore, prev]
  · rwa [stored.field (·.nSproutValue)]
  · rw [entry]
    exact keeps _ sproutTotal
  · rwa [totalBefore, prev]
  · rw [stored.field (·.nSaplingValue), entry]
    exact saplingTotal

/-- Linking the head of the queue lets its waiting children into the queue. -/
theorem LinkStep.linking (linking : tree.Linking (p :: queue)) (formed : tree.WellFormed)
    (countable : tree.Countable)
    : (after.eraseUnlinked p).Linking (queue ++ after.unlinkedChildren p) := by
  have same := step.erased
  obtain ⟨mem, data, notLinked, parent⟩ := linking.ready p mem_cons_self
  have linkedIff : ∀ q, (after.eraseUnlinked p).linked q = true ↔ q = p ∨ tree.linked q = true :=
    step.linked_iff (linking.nChainTx_ne_zero formed countable mem_cons_self)
  have linkedOf : ∀ {q}, q ≠ p → (after.eraseUnlinked p).linked q = true → tree.linked q = true :=
    fun ne isLinked => ((linkedIff _).mp isLinked).resolve_left ne
  have unlinkedIff : ∀ {q}, (after.eraseUnlinked p).linked q = false
      ↔ q ≠ p ∧ tree.linked q = false := by
    intro q
    rw [← Bool.not_eq_true, linkedIff, not_or, Bool.not_eq_true]
  have distinct := linking.distinct
  rw [cons_append, nodup_cons] at distinct
  constructor
  · intro q inside isLinked
    rw [same.blocks] at inside
    rw [same.hasData]
    by_cases eq : q = p
    · exact eq ▸ data
    · exact linking.data q inside (linkedOf eq isLinked)
  · intro q inside isLinked
    rw [same.blocks] at inside
    rw [parentLinked_iff, same.field (·.pprev)]
    intro r child
    refine (linkedIff r).mpr (.inr ?_)
    by_cases eq : q = p
    · exact parentLinked_iff.mp parent r (eq ▸ child)
    · exact parentLinked_iff.mp (linking.parent q inside (linkedOf eq isLinked)) r child
  · intro q inside isLinked
    rw [same.blocks] at inside
    by_cases eq : q = p
    · subst eq
      exact (step.totals_self linking formed countable mem data parent).congr rfl fun _ _ => rfl
    · have before := linkedOf eq isLinked
      -- The parent is linked, so that it is not `p`.
      exact (linking.totals q inside before).congr (step.other q eq)
        fun r child => step.other r (linking.ne_of_linked inside before child notLinked)
  · intro q inside hasData notYet
    rw [same.blocks] at inside
    rw [same.hasData] at hasData
    obtain ⟨ne, before⟩ := unlinkedIff.mp notYet
    rw [same.field (·.pprev)]
    rcases linking.waiting q inside hasData before with queued | ⟨r, child, listed⟩
    · exact .inl (mem_append_left _ ((mem_cons.mp queued).resolve_left ne))
    rw [← step.unlinked] at listed
    by_cases eq : r = p
    · refine .inl (mem_append_right _ (mem_map.mpr ⟨(r, q), ?_, rfl⟩))
      exact mem_filter.mpr ⟨listed, decide_eq_true eq⟩
    · exact .inr ⟨r, child, mem_filter.mpr ⟨listed, decide_eq_true eq⟩⟩
  · intro r q listed
    obtain ⟨listed, ne⟩ := mem_filter.mp listed
    rw [step.unlinked] at listed
    obtain ⟨inside, child, hasData, notYet, parentNot⟩ := linking.unlinked r q listed
    have neParent : r ≠ p := of_decide_eq_true ne
    have neSelf : q ≠ p := by
      rintro rfl
      have above := parentLinked_iff.mp parent r child
      rw [parentNot] at above
      cases above
    rw [same.blocks, same.field (·.pprev), same.hasData]
    exact ⟨inside, child, hasData, unlinkedIff.mpr ⟨neSelf, notYet⟩,
      unlinkedIff.mpr ⟨neParent, parentNot⟩⟩
  · intro q queued
    rw [same.blocks, same.hasData, parentLinked_iff, same.field (·.pprev)]
    rcases mem_append.mp queued with earlier | waiting
    · obtain ⟨inside, hasData, notYet, above⟩ := linking.ready q (mem_cons_of_mem p earlier)
      have ne : q ≠ p := by
        rintro rfl
        exact distinct.1 (mem_append_left _ earlier)
      exact ⟨inside, hasData, unlinkedIff.mpr ⟨ne, notYet⟩, fun r child =>
        (linkedIff r).mpr (.inr (parentLinked_iff.mp above r child))⟩
    · obtain ⟨⟨r, _⟩, listed, rfl⟩ := mem_map.mp waiting
      obtain ⟨listed, eq⟩ := mem_filter.mp listed
      rw [step.unlinked] at listed
      obtain ⟨inside, child, hasData, notYet, -⟩ := linking.unlinked r _ listed
      have isParent : r = p := of_decide_eq_true eq
      subst isParent
      have ne := formed.graded.ne_of_child child (formed.graded.self_mem r)
      refine ⟨inside, hasData, unlinkedIff.mpr ⟨ne, notYet⟩, ?_⟩
      intro parentOf same
      cases child.symm.trans same
      exact (linkedIff r).mpr (.inl rfl)
  · -- The pairs of `p` move to the queue, the others stay.
    have parts := (filter_append_perm (fun pair : Pointer × Pointer => pair.1 = p)
      after.mapBlocksUnlinked).map Prod.snd
    rw [map_append, step.unlinked] at parts
    rw [unlinkedChildren, eraseUnlinked, append_assoc, step.unlinked]
    refine (List.Perm.append_left queue ?_).nodup_iff.mpr distinct.2
    simpa only [decide_not] using parts
  · intro q inside notYet
    change (after.index q).nChainSproutValue = none ∧ (after.index q).nChainSaplingValue = none
    rw [same.blocks] at inside
    obtain ⟨ne, before⟩ := unlinkedIff.mp notYet
    rw [step.other q ne]
    exact linking.blank q inside before

end Round

theorem length_unlinkedChildren (tree : Tree) (p : Pointer)
    : (tree.unlinkedChildren p).length + (tree.eraseUnlinked p).mapBlocksUnlinked.length
      = tree.mapBlocksUnlinked.length := by
  rw [unlinkedChildren, length_map, eraseUnlinked,
    ← (filter_append_perm (fun pair : Pointer × Pointer => pair.1 = p)
      tree.mapBlocksUnlinked).length_eq, length_append]
  simp only [decide_not]

/-- What the rounds keep holds at the end of the loop, when the queue is empty. -/
theorem linkLoop_ok {checkpoint} {P : List Pointer → Tree → Prop} {fuel}
    (run : linkLoop checkpoint fuel queue tree = .ok after)
    (enough : queue.length + tree.mapBlocksUnlinked.length ≤ fuel) (start : P queue tree)
    (steps : ∀ p queue tree after, P (p :: queue) tree → LinkStep tree p after
      → P (queue ++ after.unlinkedChildren p) (after.eraseUnlinked p))
    : P [] after := by
  induction fuel generalizing queue tree with
  | zero =>
    cases queue with
    | nil =>
      cases run
      exact start
    | cons p queue => simp at enough
  | succ fuel ih =>
    cases queue with
    | nil =>
      cases run
      exact start
    | cons p queue =>
      obtain ⟨middle, round, rest⟩ := bind_ok.mp run
      have step := linkBlock_ok round
      refine ih rest ?_ (steps p queue tree middle start step)
      have moved := length_unlinkedChildren middle p
      rw [step.unlinked] at moved
      rw [length_append]
      rw [length_cons] at enough
      omega

/-- The rounds work on the blocks of the tree that the loop started with. -/
structure Shape (start : Tree) (queue : List Pointer) (tree : Tree) : Prop where
  same : SameBlocks start tree
  formed : tree.WellFormed
  queued : ∀ p ∈ queue, p ∈ tree.blocks
  listed : ∀ q p, (q, p) ∈ tree.mapBlocksUnlinked → p ∈ tree.blocks

theorem Shape.step {start} (shape : Shape start (p :: queue) tree) (step : LinkStep tree p after)
    : Shape start (queue ++ after.unlinkedChildren p) (after.eraseUnlinked p) := by
  have same := step.erased
  have inside : ∀ q r, (q, r) ∈ after.mapBlocksUnlinked → r ∈ (after.eraseUnlinked p).blocks := by
    intro q r pair
    rw [step.unlinked] at pair
    rw [same.blocks]
    exact shape.listed q r pair
  refine ⟨shape.same.trans same, ?_, ?_, ?_⟩
  · refine same.wellFormed shape.formed fun q outside => ?_
    have ne : q ≠ p := fun eq => outside (eq ▸ shape.queued p mem_cons_self)
    exact (step.other q ne).trans (shape.formed.unused q outside)
  · intro q waits
    rcases mem_append.mp waits with earlier | child
    · rw [same.blocks]
      exact shape.queued q (mem_cons_of_mem p earlier)
    · obtain ⟨⟨r, _⟩, pair, rfl⟩ := mem_map.mp child
      exact inside r _ (mem_filter.mp pair).1
  · intro q r pair
    exact inside q r (mem_filter.mp pair).1

/-- The state between two rounds: the tree that the loop started with, partly linked. -/
structure Round (start : Tree) (queue : List Pointer) (tree : Tree) : Prop
    extends Shape start queue tree where
  linking : tree.Linking queue
  countable : tree.Countable
  chainActive : tree.chainActive = start.chainActive

theorem Linking.shape {start} (linking : tree.Linking queue) (formed : tree.WellFormed)
    (same : SameBlocks start tree)
    : Shape start queue tree :=
  ⟨same, formed, fun p queued => (linking.ready p queued).1,
    fun q p listed => (linking.unlinked q p listed).1⟩

theorem Round.step {start} (round : Round start (p :: queue) tree) (step : LinkStep tree p after)
    : Round start (queue ++ after.unlinkedChildren p) (after.eraseUnlinked p) :=
  ⟨round.toShape.step step, step.linking round.linking round.formed round.countable,
    step.erased.countable round.countable, step.chainActive.trans round.chainActive⟩

/-! Receiving a block. -/

section Store

variable (block : CBlock) {checkpoint : PoolCheckpoint}

theorem storeBlock_index_ne (ne : q ≠ p)
    : (tree.storeBlock block p).index q = tree.index q :=
  if_neg ne

/-- What a received block does not tell stays as it was. -/
theorem storeBlock_field {β} (f : CBlockIndex → β) (q : Pointer)
    (static : ∀ entry : CBlockIndex, f (entry.received block) = f entry := by intro; rfl)
    : f ((tree.storeBlock block p).index q) = f (tree.index q) :=
  modify_field f q static

theorem storeBlock_pprev (q : Pointer)
    : ((tree.storeBlock block p).index q).pprev = (tree.index q).pprev :=
  storeBlock_field block (·.pprev) q

theorem storeBlock_hasData_self : (tree.storeBlock block p).hasData p = true := by
  rw [hasData, storeBlock, index_modify_self, received, BlockStatus.haveData_raiseValidity]

theorem storeBlock_path (q : Pointer) : (tree.storeBlock block p).path q = tree.path q := by
  rw [path, storeBlock_field block (·.nHeight), funext (storeBlock_pprev block), path]

theorem storeBlock_wellFormed (formed : tree.WellFormed) (mem : p ∈ tree.blocks)
    : (tree.storeBlock block p).WellFormed := by
  refine formed.of_links rfl
    (fun q => ⟨storeBlock_pprev block q, storeBlock_field block (·.nHeight) q,
      storeBlock_field block (·.hash) q⟩) ?_
  intro q outside
  have ne : q ≠ p := fun eq => outside (eq ▸ mem)
  rw [storeBlock_index_ne block ne]
  exact formed.unused q outside

section

variable (linking : tree.Linking []) (mem : p ∈ tree.blocks) (noData : tree.hasData p = false)
include linking mem noData

theorem Linking.not_linked
    : tree.linked p = false := by
  by_contra isLinked
  rw [Bool.not_eq_false] at isLinked
  rw [linking.data p mem isLinked] at noData
  cases noData

/-- A block without data is not linked, so storing it links or unlinks nothing. -/
theorem storeBlock_linked (q : Pointer)
    : (tree.storeBlock block p).linked q = tree.linked q := by
  by_cases same : q = p
  · subst same
    rw [linking.not_linked mem noData, linked, storeBlock, index_modify_self]
    rfl
  · rw [linked, storeBlock_index_ne block same, linked]

theorem storeBlock_parentLinked (q : Pointer)
    : (tree.storeBlock block p).parentLinked q = tree.parentLinked q := by
  rw [Bool.eq_iff_iff, parentLinked_iff, parentLinked_iff, storeBlock_pprev block]
  simp only [storeBlock_linked block linking mem noData]

theorem storeBlock_totals (inside : q ∈ tree.blocks) (isLinked : tree.linked q = true)
    : (tree.storeBlock block p).Totals q := by
  have notLinked := linking.not_linked mem noData
  have ne : q ≠ p := by
    rintro rfl
    cases notLinked.symm.trans isLinked
  exact (linking.totals q inside isLinked).congr (storeBlock_index_ne block ne) fun r child =>
    storeBlock_index_ne block (linking.ne_of_linked inside isLinked child notLinked)

/-- Storing a block keeps the invariant if the block is queued or listed as waiting. -/
theorem storeBlock_linking {queue waiting}
    (placed : (queue = [p] ∧ waiting = [] ∧ tree.parentLinked p = true)
      ∨ ∃ q, queue = [] ∧ waiting = [(q, p)] ∧ (tree.index p).pprev = some q
        ∧ tree.linked q = false)
    : { tree.storeBlock block p with
        mapBlocksUnlinked := tree.mapBlocksUnlinked ++ waiting }.Linking queue := by
  have linkedEq := storeBlock_linked block linking mem noData
  have hasDataOf : ∀ {q}, q ≠ p → (tree.storeBlock block p).hasData q = tree.hasData q := by
    intro q ne
    rw [hasData, storeBlock_index_ne block ne, hasData]
  have notListed : p ∉ tree.mapBlocksUnlinked.map Prod.snd := by
    intro listed
    obtain ⟨⟨r, _⟩, pair, rfl⟩ := mem_map.mp listed
    rw [(linking.unlinked r _ pair).2.2.1] at noData
    cases noData
  constructor
  · intro q inside isLinked
    change (tree.storeBlock block p).hasData q = true
    by_cases same : q = p
    · exact same ▸ storeBlock_hasData_self block
    · rw [hasDataOf same]
      exact linking.data q inside ((linkedEq q).symm.trans isLinked)
  · intro q inside isLinked
    refine (storeBlock_parentLinked block linking mem noData q).trans ?_
    exact linking.parent q inside ((linkedEq q).symm.trans isLinked)
  · intro q inside isLinked
    exact (storeBlock_totals block linking mem noData inside
      ((linkedEq q).symm.trans isLinked)).congr rfl fun _ _ => rfl
  · intro q inside hasData notYet
    rw [storeBlock_pprev block]
    by_cases same : q = p
    · subst same
      rcases placed with ⟨rfl, -, -⟩ | ⟨r, -, rfl, child, -⟩
      · exact .inl (mem_singleton_self q)
      · exact .inr ⟨r, child, mem_append_right _ (mem_singleton_self _)⟩
    · rcases linking.waiting q inside ((hasDataOf same).symm.trans hasData)
        ((linkedEq q).symm.trans notYet) with queued | ⟨r, child, listed⟩
      · cases queued
      · exact .inr ⟨r, child, mem_append_left _ listed⟩
  · intro r q listed
    change q ∈ tree.blocks ∧ ((tree.storeBlock block p).index q).pprev = some r
      ∧ (tree.storeBlock block p).hasData q = true
      ∧ (tree.storeBlock block p).linked q = false
      ∧ (tree.storeBlock block p).linked r = false
    rw [storeBlock_pprev block, linkedEq, linkedEq]
    rcases mem_append.mp listed with before | added
    · obtain ⟨inside, child, hasData, notYet, parent⟩ := linking.unlinked r q before
      have ne : q ≠ p := fun same =>
        notListed (mem_map.mpr ⟨(r, q), before, same⟩)
      exact ⟨inside, child, (hasDataOf ne).trans hasData, notYet, parent⟩
    · rcases placed with ⟨-, rfl, -⟩ | ⟨_, -, rfl, child, parent⟩
      · cases added
      · cases mem_singleton.mp added
        exact ⟨mem, child, storeBlock_hasData_self block, linking.not_linked mem noData, parent⟩
  · intro q queued
    rcases placed with ⟨rfl, -, parent⟩ | ⟨_, rfl, -, -, -⟩
    · cases mem_singleton.mp queued
      exact ⟨mem, storeBlock_hasData_self block, (linkedEq p).trans (linking.not_linked mem noData),
        (storeBlock_parentLinked block linking mem noData p).trans parent⟩
    · cases queued
  · have before : (tree.mapBlocksUnlinked.map Prod.snd).Nodup := linking.distinct
    rcases placed with ⟨rfl, rfl, -⟩ | ⟨_, rfl, rfl, -, -⟩
    · simpa using ⟨by simpa using notListed, before⟩
    · change (map Prod.snd (tree.mapBlocksUnlinked ++ [_])).Nodup
      rw [map_append, nodup_append_comm]
      exact nodup_cons.mpr ⟨notListed, before⟩
  · intro q inside notYet
    by_cases same : q = p
    · subst same
      rw [storeBlock, index_modify_self]
      exact ⟨rfl, rfl⟩
    · rw [storeBlock_index_ne block same]
      exact linking.blank q inside ((linkedEq q).symm.trans notYet)

end

/-- A received block starts the loop, or waits for its parent, or is lost because its parent is
neither linked nor valid.
-/
theorem receivedBlockTransactions_cases
    (run : tree.receivedBlockTransactions checkpoint block p = .ok after)
    : ((tree.storeBlock block p).parentLinked p = true
        ∧ linkLoop checkpoint (tree.mapBlocksUnlinked.length + 1) [p] (tree.storeBlock block p)
          = .ok after)
      ∨ ∃ q, (tree.index p).pprev = some q ∧ (tree.storeBlock block p).linked q = false
        ∧ (((tree.storeBlock block p).index q).nStatus.isValid .tree = true
            ∧ after = { tree.storeBlock block p with
              mapBlocksUnlinked := tree.mapBlocksUnlinked ++ [(q, p)] }
          ∨ ((tree.storeBlock block p).index q).nStatus.isValid .tree = false
            ∧ after = tree.storeBlock block p) := by
  unfold receivedBlockTransactions at run
  simp only at run
  split at run
  next ready => exact .inl ⟨ready, run⟩
  next waits =>
    simp only [parentLinked_iff, not_forall, Bool.not_eq_true, storeBlock_pprev block] at waits
    obtain ⟨q, child, notLinked⟩ := waits
    rw [storeBlock_pprev block, child] at run
    refine .inr ⟨q, child, notLinked, ?_⟩
    simp only at run
    split at run
    next valid =>
      cases run
      exact .inl ⟨valid, rfl⟩
    next invalid =>
      cases run
      exact .inr ⟨Bool.not_eq_true _ ▸ invalid, rfl⟩

omit block in
theorem sameBlocks_unlinked (tree : Tree) (waiting : List (Pointer × Pointer))
    : SameBlocks tree { tree with mapBlocksUnlinked := waiting } :=
  ⟨rfl, fun _ => rfl⟩

/-- Receiving a block links what can be linked. That its parent is neither linked nor valid is
excluded here.
-/
theorem receivedBlockTransactions_round (linking : tree.Linking []) (formed : tree.WellFormed)
    (countable : (tree.storeBlock block p).Countable) (mem : p ∈ tree.blocks)
    (noData : tree.hasData p = false)
    (parentValid : ∀ q, (tree.index p).pprev = some q → tree.linked q = false
      → (tree.index q).nStatus.isValid .tree = true)
    (run : tree.receivedBlockTransactions checkpoint block p = .ok after)
    : Round (tree.storeBlock block p) [] after := by
  have formedStored := storeBlock_wellFormed block formed mem
  rcases receivedBlockTransactions_cases block run with
    ⟨ready, loop⟩ | ⟨q, child, notLinked, ⟨-, rfl⟩ | ⟨invalid, -⟩⟩
  · rw [storeBlock_parentLinked block linking mem noData] at ready
    have queued := storeBlock_linking block linking mem noData
      (.inl ⟨rfl, rfl, ready⟩)
    rw [append_nil] at queued
    exact linkLoop_ok loop (by rw [Nat.add_comm]; rfl)
      ⟨queued.shape formedStored (.refl _), queued, countable, rfl⟩
      fun _ _ _ _ round step => round.step step
  · rw [storeBlock_linked block linking mem noData] at notLinked
    have same := sameBlocks_unlinked (tree.storeBlock block p)
      (tree.mapBlocksUnlinked ++ [(q, p)])
    have placed := storeBlock_linking block linking mem noData
      (.inr ⟨q, rfl, rfl, child, notLinked⟩)
    exact ⟨placed.shape (same.wellFormed formedStored formedStored.unused) same,
      placed, same.countable countable, rfl⟩
  · rw [storeBlock_linked block linking mem noData] at notLinked
    rw [storeBlock_index_ne block (ne_of_pprev formed child), parentValid q child notLinked]
      at invalid
    cases invalid

/-- Receiving a block changes what linking computes, whatever the state. -/
theorem receivedBlockTransactions_shape (formed : tree.WellFormed) (mem : p ∈ tree.blocks)
    (listed : ∀ r q, (r, q) ∈ tree.mapBlocksUnlinked → q ∈ tree.blocks)
    (run : tree.receivedBlockTransactions checkpoint block p = .ok after)
    : Shape (tree.storeBlock block p) [] after := by
  have formedStored := storeBlock_wellFormed block formed mem
  rcases receivedBlockTransactions_cases block run with
    ⟨-, loop⟩ | ⟨q, -, -, ⟨-, rfl⟩ | ⟨-, rfl⟩⟩
  · refine linkLoop_ok loop (by rw [Nat.add_comm]; rfl) ?_
      fun _ _ _ _ shape step => shape.step step
    refine ⟨.refl _, formedStored, fun q queued => ?_, listed⟩
    cases mem_singleton.mp queued
    exact mem
  · have same := sameBlocks_unlinked (tree.storeBlock block p)
      (tree.mapBlocksUnlinked ++ [(q, p)])
    refine ⟨same, same.wellFormed formedStored formedStored.unused, nofun, fun r s pair => ?_⟩
    rcases mem_append.mp pair with before | added
    · exact listed r s before
    · cases mem_singleton.mp added
      exact mem
  · exact ⟨.refl _, formedStored, nofun, listed⟩

end Store

/-! Changes of status. -/

/-- The trees differ in the active chain, the candidates, and the status of blocks other than
whether they have data.
-/
structure SameLinks (tree after : Tree) : Prop where
  mapBlockIndex : after.mapBlockIndex = tree.mapBlockIndex
  unlinked : after.mapBlocksUnlinked = tree.mapBlocksUnlinked
  entry : ∀ p, { after.index p with nStatus := (tree.index p).nStatus } = tree.index p
  haveData : ∀ p, after.hasData p = tree.hasData p
  outside : ∀ p, p ∉ tree.blocks → after.index p = tree.index p

theorem SameLinks.field {β} (same : SameLinks tree after) (f : CBlockIndex → β) (p : Pointer)
    (free : ∀ (entry : CBlockIndex) (nStatus : BlockStatus),
      f { entry with nStatus } = f entry := by intro _ _; rfl)
    : f (after.index p) = f (tree.index p) :=
  (free (after.index p) (tree.index p).nStatus).symm.trans (congrArg f (same.entry p))

section

variable (same : SameLinks tree after)
include same

theorem SameLinks.blocks : after.blocks = tree.blocks := by
  rw [Tree.blocks, same.mapBlockIndex, Tree.blocks]

theorem SameLinks.path (p : Pointer)
    : after.path p = tree.path p := by
  rw [Tree.path, same.field (·.nHeight), funext (same.field (·.pprev)), Tree.path]

theorem SameLinks.linked (p : Pointer)
    : after.linked p = tree.linked p := by
  rw [Tree.linked, same.field (·.nChainTx), Tree.linked]

theorem SameLinks.txBefore (p : Pointer)
    : after.txBefore p = tree.txBefore p := by
  rw [Tree.txBefore, Tree.txBefore, prev, prev, same.field (·.pprev)]
  cases (tree.index p).pprev with
  | none => rfl
  | some q => exact same.field (·.nChainTx) q

end

theorem SameLinks.totalBefore (same : SameLinks tree after)
    (total : CBlockIndex → Option CAmount) (p : Pointer)
    (free : ∀ (entry : CBlockIndex) (nStatus : BlockStatus),
      total { entry with nStatus } = total entry := by intro _ _; rfl)
    : after.totalBefore total p = tree.totalBefore total p := by
  rw [Tree.totalBefore, Tree.totalBefore, prev, prev, same.field (·.pprev)]
  cases (tree.index p).pprev with
  | none => rfl
  | some q => exact same.field total q free

theorem SameLinks.wellFormed (same : SameLinks tree after) (formed : tree.WellFormed)
    : after.WellFormed :=
  formed.of_links same.mapBlockIndex
    (fun p => ⟨same.field (·.pprev) p, same.field (·.nHeight) p, same.field (·.hash) p⟩)
    fun p outside => (same.outside p outside).trans (formed.unused p outside)

theorem SameLinks.linking (same : SameLinks tree after) (linking : tree.Linking queue)
    : after.Linking queue := by
  have pprev := same.field (·.pprev)
  have parentLinked : ∀ p, after.parentLinked p = tree.parentLinked p := by
    intro p
    rw [Bool.eq_iff_iff, parentLinked_iff, parentLinked_iff, pprev]
    simp only [same.linked]
  have totals {p} : tree.Totals p → after.Totals p := by
    rintro ⟨tx, sprout, sapling⟩
    constructor
    · rwa [same.txBefore, same.field (·.nChainTx), same.field (·.nTx)]
    · rwa [same.totalBefore nChainSproutValue, same.field (·.nSproutValue),
        same.field (·.nChainSproutValue)]
    · rwa [same.totalBefore nChainSaplingValue,
        same.field (·.nSaplingValue), same.field (·.nChainSaplingValue)]
  refine ⟨?_, ?_, ?_, ?_, ?_, ?_, same.unlinked ▸ linking.distinct, ?_⟩
  all_goals
    simp only [same.blocks, same.linked, same.haveData, same.unlinked, parentLinked, pprev,
      same.field (·.nChainSproutValue), same.field (·.nChainSaplingValue)]
  exacts [linking.data, linking.parent,
    fun p mem isLinked => totals (linking.totals p mem isLinked), linking.waiting,
    linking.unlinked, linking.ready, linking.blank]

/-- When nothing is queued, the linked blocks are those whose chains have data. -/
theorem Linking.linked_iff (linking : tree.Linking []) (formed : tree.WellFormed)
    (mem : p ∈ tree.blocks)
    : tree.linked p = true ↔ ∀ q ∈ tree.path p, tree.hasData q = true := by
  induction p using formed.graded.induction with
  | step p ih =>
    constructor
    · intro isLinked q ancestor
      rcases formed.graded.mem_lineage.mp ancestor with rfl | ⟨r, child, above⟩
      · exact linking.data q mem isLinked
      · have parent := parentLinked_iff.mp (linking.parent p mem isLinked) r child
        exact (ih r child (formed.closed p r mem child)).mp parent q above
    · intro data
      by_contra notLinked
      rw [Bool.not_eq_true] at notLinked
      have waiting := linking.waiting p mem (data p (formed.graded.self_mem p)) notLinked
      rcases waiting with queued | ⟨r, child, listed⟩
      · cases queued
      obtain ⟨-, -, -, -, parentNot⟩ := linking.unlinked r p listed
      have parent := (ih r child (formed.closed p r mem child)).mpr fun q above =>
        data q (formed.graded.mem_of_child child above)
      rw [parentNot] at parent
      cases parent

end Invariant

theorem wellFormed_start : WellFormed {} where
  graded := ⟨fun _ => rfl, nofun⟩
  closed := fun _ _ mem => nomatch mem
  distinct := nodup_nil
  hashes := fun _ _ found => nomatch found
  unused := fun _ _ => rfl

theorem linking_start : Linking {} [] where
  data := nofun
  parent := nofun
  totals := nofun
  waiting := nofun
  unlinked := fun _ _ listed => nomatch listed
  ready := nofun
  distinct := nodup_nil
  blank := nofun

end Tree

end Resistance.BlockTree

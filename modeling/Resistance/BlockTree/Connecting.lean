import Resistance.BlockTree.Sound

/-! The loops of `ActivateBestChainStep` for any verdicts of `ConnectBlock`: what holds of the
tree and is kept when one more block of the best chain is connected holds where they stop.
-/

namespace Resistance.BlockTree

open List Lib.Forest Lib.Checks Option

namespace Tree

variable {verdict : Pointer → Verdict} {start tree after : Tree} {goal p x : Pointer}
  {oldTip tip : Option Pointer}

/-- The tree with a valid block connected. -/
def withTip (tree : Tree) (p : Pointer) : Tree :=
  (tree.modify p CBlockIndex.markConnected).setTip (some p)

/-- What `InvalidBlockFound` and `InvalidChainFound` do to an invalid block. -/
structure MarkedInvalid (tree : Tree) (x : Pointer) (after : Tree) : Prop where
  index : after.index = (tree.modify x CBlockIndex.markFailedValid).index
  candidates : after.setBlockIndexCandidates = tree.setBlockIndexCandidates.filter (· ≠ x)
  chainActive : after.chainActive = tree.chainActive
  mapBlockIndex : after.mapBlockIndex = tree.mapBlockIndex
  unlinked : after.mapBlocksUnlinked = tree.mapBlocksUnlinked

/-- What is left of a tree where a block was found invalid: if the block may be corrupted,
nothing happens.
-/
def Rejected (tree : Tree) (x : Pointer) (corruptionPossible : Bool) (after : Tree) : Prop :=
  if corruptionPossible then after = tree else tree.MarkedInvalid x after

theorem invalidChainFound_ok (run : tree.invalidChainFound p = .ok after)
    : tree.tip ≠ none ∧ after = tree.raiseBestInvalid p := by
  obtain ⟨_, isTip, result⟩ := bind_ok.mp run
  cases result
  exact ⟨assertThat_ok.mp isTip, rfl⟩

theorem CBlockIndex.markConnected_status (entry : CBlockIndex)
    : { entry.markConnected with nStatus := entry.nStatus } = entry
      ∧ entry.markConnected.nStatus.haveData = entry.nStatus.haveData
      ∧ entry.markConnected.nStatus.failed = entry.nStatus.failed
      ∧ entry.nStatus.valid.level ≤ entry.markConnected.nStatus.valid.level := by
  rw [CBlockIndex.markConnected]
  split
  · exact ⟨rfl, rfl, rfl, Nat.le_refl _⟩
  · refine ⟨rfl, BlockStatus.haveData_raiseValidity _ _, BlockStatus.failed_raiseValidity _ _, ?_⟩
    exact BlockStatus.valid_le_raiseValidity { entry.nStatus with haveUndo := true } .scripts

theorem sameLinks_chainActive (tree : Tree) (chain : List (Option Pointer))
    : SameLinks tree { tree with chainActive := chain } :=
  ⟨rfl, rfl, fun _ => rfl, fun _ => rfl, fun _ _ => rfl⟩

theorem sameLinks_candidates (tree : Tree) (candidates : List Pointer)
    : SameLinks tree { tree with setBlockIndexCandidates := candidates } :=
  ⟨rfl, rfl, fun _ => rfl, fun _ => rfl, fun _ _ => rfl⟩

/-- What connecting a block changes. -/
theorem withTip_ok (formed : tree.WellFormed) (active : tree.ActiveIs tip) (mem : p ∈ tree.blocks)
    : SameLinks tree (tree.withTip p) ∧ (tree.withTip p).ActiveIs (some p)
      ∧ ∀ q, ((tree.withTip p).index q).nStatus.failed = (tree.index q).nStatus.failed
        ∧ (tree.index q).nStatus.valid.level ≤ ((tree.withTip p).index q).nStatus.valid.level := by
  have modified : SameLinks tree (tree.modify p CBlockIndex.markConnected) :=
    sameLinks_modify tree mem (fun entry => (CBlockIndex.markConnected_status entry).1)
      fun entry => (CBlockIndex.markConnected_status entry).2.1
  refine ⟨modified.trans (sameLinks_chainActive _ _), ?_, fun q => ?_⟩
  · exact (modified.activeIs rfl active).setTip (modified.wellFormed formed)
      fun q same => some_inj.mp same ▸ mem
  change ((tree.modify p CBlockIndex.markConnected).index q).nStatus.failed = _
    ∧ _ ≤ ((tree.modify p CBlockIndex.markConnected).index q).nStatus.valid.level
  by_cases self : q = p
  · subst self
    rw [index_modify_self]
    exact (CBlockIndex.markConnected_status _).2.2
  · rw [index_modify_ne tree _ self]
    exact ⟨rfl, Nat.le_refl _⟩

theorem MarkedInvalid.sameLinks (marked : tree.MarkedInvalid x after) (mem : x ∈ tree.blocks)
    : SameLinks tree after := by
  have modified : SameLinks tree (tree.modify x CBlockIndex.markFailedValid) :=
    sameLinks_modify tree mem (fun _ => rfl) fun _ => rfl
  refine ⟨marked.mapBlockIndex, marked.unlinked, fun p => ?_, fun p => ?_, fun p => ?_⟩
  · rw [marked.index]
    exact modified.entry p
  · rw [hasData, marked.index]
    exact modified.haveData p
  · rw [marked.index]
    exact modified.outside p

/-- Only the invalid block gets a mark. -/
theorem MarkedInvalid.failed (marked : tree.MarkedInvalid x after) (p : Pointer)
    : (after.index p).nStatus.failed = true ↔ p = x ∨ (tree.index p).nStatus.failed = true := by
  rw [marked.index]
  by_cases self : p = x
  · subst self
    rw [index_modify_self]
    exact iff_of_true rfl (.inl rfl)
  · rw [index_modify_ne tree _ self, or_iff_right self]

theorem pruneBlockIndexCandidates_ok (run : tree.pruneBlockIndexCandidates = .ok after)
    : ∃ t, tree.tip = some t ∧ after = { tree with
        setBlockIndexCandidates :=
          tree.setBlockIndexCandidates.filter fun p => !tree.worse p t } := by
  rw [pruneBlockIndexCandidates] at run
  split at run
  next => cases run
  next t isTip =>
    obtain ⟨_, -, result⟩ := bind_ok.mp run
    cases result
    exact ⟨t, isTip, rfl⟩

/-- What has to be shown of a property of trees and their tips: it is kept when the next block
of the chain of `goal` is connected and the candidates are pruned.
-/
structure ConnectRule (verdict : Pointer → Verdict) (start : Tree) (goal : Pointer)
    (Inv : Tree → Option Pointer → Prop)
    : Prop where
  same : ∀ tree tip, Inv tree tip → SameLinks start tree
  active : ∀ tree tip, Inv tree tip → tree.ActiveIs tip
  onPath : ∀ tree t, Inv tree (some t) → t ∈ start.path goal
  connect : ∀ tree tip p after, Inv tree tip → p ∈ start.path goal
    → (start.index p).pprev = tip → verdict p = .valid
    → (tree.withTip p).pruneBlockIndexCandidates = .ok after → Inv after (some p)

/-- Where the loops stop: with all blocks connected, where the last one is `last`, at a tip that
is better than the old one, or at a block that cannot be connected.
-/
inductive Stopped (verdict : Pointer → Verdict) (start : Tree) (goal : Pointer)
    (Inv : Tree → Option Pointer → Prop) (oldTip last : Option Pointer) (after : Tree)
    : Progress → Prop where
  | unfinished (holds : Inv after last)
      : Stopped verdict start goal Inv oldTip last after .unfinished
  | better {t : Pointer} (holds : Inv after (some t)) (isBetter : after.betterThan oldTip = true)
      : Stopped verdict start goal Inv oldTip last after .better
  | invalid {tree : Tree} {tip : Option Pointer} {x : Pointer} {corruptionPossible : Bool}
      (holds : Inv tree tip) (onPath : x ∈ start.path goal) (next : (start.index x).pprev = tip)
      (isInvalid : verdict x = .invalid corruptionPossible)
      (rejected : tree.Rejected x corruptionPossible after)
      : Stopped verdict start goal Inv oldTip last after .invalidFound
  | systemError {tip : Option Pointer} {x : Pointer} (holds : Inv after tip)
      (isError : verdict x = .systemError)
      : Stopped verdict start goal Inv oldTip last after .systemError

variable {Inv : Tree → Option Pointer → Prop}

theorem markedInvalid_of_run {middle last} (found : tree.invalidBlockFound x false = .ok middle)
    (chain : middle.invalidChainFound last = .ok after)
    : tree.MarkedInvalid x after := by
  obtain ⟨-, isMiddle⟩ := invalidChainFound_ok found
  obtain ⟨-, rfl⟩ := invalidChainFound_ok chain
  subst isMiddle
  exact {
    index := rfl
    candidates := rfl
    chainActive := rfl
    mapBlockIndex := rfl
    unlinked := rfl
  }

variable {batch : List Pointer} {progress : Progress} {fuel : Nat}

theorem getLast?_cons_or (p : Pointer) (batch : List Pointer) (tip : Option Pointer)
    : (p :: batch).getLast?.or tip = batch.getLast?.or (some p) := by
  cases batch with
  | nil => rfl
  | cons q rest => rw [getLast?_cons_cons, getLast?_cons, some_or, some_or]

/-- After a batch the tip is its last block, unless the loop has stopped before. -/
theorem ConnectRule.connectBlocks (rule : ConnectRule verdict start goal Inv)
    (formed : start.WellFormed) {last} (holds : Inv tree tip)
    (onPath : ∀ p ∈ batch, p ∈ start.path goal)
    (run : connectBlocks verdict oldTip last batch tree = .ok (progress, after))
    : Stopped verdict start goal Inv oldTip (batch.getLast?.or tip) after progress := by
  induction batch generalizing tree tip with
  | nil =>
    cases run
    exact .unfinished holds
  | cons p rest ih =>
    obtain ⟨⟨said, middle⟩, connected, result⟩ := bind_ok.mp run
    obtain ⟨_, parent, judged⟩ := bind_ok.mp connected
    have same := rule.same tree tip holds
    have next : (start.index p).pprev = tip := by
      rw [← same.field (·.pprev), assertThat_ok.mp parent,
        (rule.active tree tip holds).tip (same.wellFormed formed)]
    have here := onPath p mem_cons_self
    cases said' : verdict p with
    | valid =>
      rw [said'] at judged
      cases judged
      obtain ⟨pruned, prune, result⟩ := bind_ok.mp result
      have further := rule.connect tree tip p pruned holds here next said' prune
      split at result
      next better =>
        cases result
        exact .better further better
      next =>
        rw [getLast?_cons_or]
        exact ih further (fun q mem => onPath q (mem_cons_of_mem p mem)) result
    | invalid corruptionPossible =>
      rw [said'] at judged
      obtain ⟨marked, found, judged⟩ := bind_ok.mp judged
      cases judged
      cases corruptionPossible with
      | true =>
        cases found
        cases result
        exact .invalid holds here next said' rfl
      | false =>
        obtain ⟨final, chain, result⟩ := bind_ok.mp result
        cases result
        exact .invalid holds here next said' (markedInvalid_of_run found chain)
    | systemError =>
      rw [said'] at judged
      cases judged
      cases result
      exact .systemError holds said'

/-- A tip on the way to the goal is not above it, and at its height only when it is the goal. -/
theorem heightOf_bounds (formed : start.WellFormed)
    (onPath : ∀ t, tip = some t → t ∈ start.path goal)
    : -1 ≤ start.heightOf tip ∧ start.heightOf tip ≤ (start.index goal).nHeight
      ∧ (start.heightOf tip = (start.index goal).nHeight → tip = some goal) := by
  cases tip with
  | none =>
    simp only [heightOf, map_none, getD_none]
    refine ⟨Int.le_refl _, by omega, fun absurd => by omega⟩
  | some t =>
    have ancestor := onPath t rfl
    have below : (start.index t).nHeight ≤ (start.index goal).nHeight :=
      formed.graded.height_le ancestor
    simp only [heightOf, map_some, getD_some]
    refine ⟨by omega, by omega, fun level => congrArg some ?_⟩
    exact formed.graded.eq_of_height_eq ancestor (formed.graded.self_mem goal) (by omega)

/-- A batch goes up from the tip to an ancestor of the goal, which is its last block. -/
theorem batch_ok (formed : start.WellFormed) (skips : start.Skips) (same : SameLinks start tree)
    (onPath : ∀ t, tip = some t → t ∈ start.path goal) {target}
    (below : start.heightOf tip ≠ (start.index goal).nHeight)
    (isTarget : min (start.heightOf tip + 32) ((start.index goal).nHeight : Int) = target)
    : ∃ top ∈ start.path goal, start.heightOf (some top) = target ∧ start.heightOf tip < target
      ∧ (∀ t, tip = some t → t ∈ start.path top) ∧ tree.getAncestor goal target = some top
      ∧ (tree.blocksAbove (tree.getAncestor goal target) (start.heightOf tip)).head? = some top
      ∧ ∀ p ∈ tree.blocksAbove (tree.getAncestor goal target) (start.heightOf tip),
        p ∈ start.path goal := by
  have formedNow := same.wellFormed formed
  have goalHeight := same.field (·.nHeight) goal
  obtain ⟨low, high, -⟩ := heightOf_bounds formed onPath
  obtain ⟨level, rfl⟩ := Int.eq_ofNat_of_zero_le (show 0 ≤ target by omega)
  obtain ⟨top, found, ancestor, isLevel⟩ := getAncestor_ok formedNow (same.skips skips)
    (show level ≤ (tree.index goal).nHeight by omega)
  have height := (same.field (·.nHeight) top).symm.trans isLevel
  have inGoal : top ∈ start.path goal := same.path goal ▸ ancestor
  rw [found]
  refine ⟨top, inGoal, congrArg _ height, by omega, ?_, rfl, ?_, fun p between => ?_⟩
  · rintro t rfl
    have lower : start.heightOf (some t) = (start.index t).nHeight := rfl
    exact formed.graded.mem_of_height_le (onPath t rfl) inGoal (by omega)
  · have differs : ((tree.index top).nHeight : Int) ≠ start.heightOf tip := by omega
    obtain ⟨rest, path⟩ := tree.path_cons top
    simp [blocksAbove, path, differs]
  · rw [← same.path]
    exact formedNow.graded.ancestor_trans ancestor ((takeWhile_sublist _).subset between)

/-- The loop over the batches ends at the goal, unless it has stopped before. -/
theorem ConnectRule.connectLoop (rule : ConnectRule verdict start goal Inv)
    (formed : start.WellFormed) (skips : start.Skips) (holds : Inv tree tip)
    (run : connectLoop verdict oldTip goal fuel (start.heightOf tip) tree = .ok (progress, after))
    : Stopped verdict start goal Inv oldTip (some goal) after progress := by
  induction fuel generalizing tree tip with
  | zero => cases run
  | succ fuel ih =>
    have same := rule.same tree tip holds
    have below := fun t (isTip : tip = some t) => rule.onPath tree t (isTip ▸ holds)
    rw [Tree.connectLoop, same.field (·.nHeight)] at run
    simp only at run
    split at run
    next reached =>
      cases run
      exact .unfinished ((heightOf_bounds formed below).2.2 reached ▸ holds)
    next notYet =>
      generalize isTarget : min (start.heightOf tip + 32) ((start.index goal).nHeight : Int)
        = target at run
      obtain ⟨⟨batchProgress, middle⟩, batch, rest⟩ := bind_ok.mp run
      obtain ⟨top, -, height, -, -, -, first, onPath⟩ :=
        batch_ok formed skips same below notYet isTarget
      have outcome := rule.connectBlocks formed holds
        (fun p mem => onPath p (mem_reverse.mp mem)) batch
      rw [getLast?_reverse, first, some_or] at outcome
      cases outcome with
      | unfinished further =>
        simp only [if_true] at rest
        rw [← height] at rest
        exact ih further rest
      | _ =>
        cases rest
        constructor
        all_goals assumption

/-- A list of blocks, each one the child of the one before. -/
def Ascends (start : Tree) : Option Pointer → List Pointer → Prop
  | _, [] => True
  | tip, p :: rest => (start.index p).pprev = tip ∧ start.Ascends (some p) rest

theorem ascends_append (ascends : start.Ascends tip batch)
    (next : (start.index p).pprev = batch.getLast?.or tip)
    : start.Ascends tip (batch ++ [p]) := by
  induction batch generalizing tip with
  | nil => exact ⟨next, trivial⟩
  | cons q rest ih =>
    refine ⟨ascends.1, ih ascends.2 ?_⟩
    rw [next, getLast?_cons_or]

theorem SameLinks.blocksAbove (same : SameLinks start tree) (pindexIter : Option Pointer)
    (nHeight : Int)
    : tree.blocksAbove pindexIter nHeight = start.blocksAbove pindexIter nHeight := by
  cases pindexIter with
  | none => rfl
  | some p =>
    simp only [Tree.blocksAbove, same.path, same.field (·.nHeight)]

/-- The blocks above a tip ascend from it. -/
theorem blocksAbove_ascends (formed : start.WellFormed) {top}
    (below : ∀ t, tip = some t → t ∈ start.path top)
    : start.Ascends tip (start.blocksAbove (some top) (start.heightOf tip)).reverse
      ∧ (start.blocksAbove (some top) (start.heightOf tip)).head?.or tip = some top := by
  induction top using formed.graded.induction with
  | step top ih =>
    by_cases here : tip = some top
    · have empty : start.blocksAbove (some top) (start.heightOf tip) = [] := by
        obtain ⟨rest, path⟩ := start.path_cons top
        simp [blocksAbove, here, heightOf, path]
      rw [empty, here]
      exact ⟨trivial, rfl⟩
    · obtain ⟨low, high, reaches⟩ := heightOf_bounds formed below
      have differs : ((start.index top).nHeight : Int) ≠ start.heightOf tip :=
        fun same => here (reaches same.symm)
      cases child : (start.index top).pprev with
      | none =>
        have isNone : tip = none := by
          cases tip with
          | none => rfl
          | some t =>
            have ancestor := below t rfl
            rw [formed.path_root child, mem_singleton] at ancestor
            exact absurd (congrArg some ancestor) here
        have single : start.blocksAbove (some top) (start.heightOf tip) = [top] := by
          rw [blocksAbove, formed.path_root child, takeWhile_cons_of_pos (by simpa using differs)]
          rfl
        rw [single, isNone]
        exact ⟨⟨child, trivial⟩, rfl⟩
      | some parent =>
        have more : start.blocksAbove (some top) (start.heightOf tip)
            = top :: start.blocksAbove (some parent) (start.heightOf tip) := by
          rw [blocksAbove, formed.path_child child, takeWhile_cons_of_pos (by simpa using differs)]
          rfl
        have lower : ∀ t, tip = some t → t ∈ start.path parent := by
          rintro t rfl
          rcases formed.graded.mem_lineage.mp (below t rfl) with rfl | ⟨_, isChild, above⟩
          · exact absurd rfl here
          · exact some_inj.mp (child.symm.trans isChild) ▸ above
        obtain ⟨ascends, first⟩ := ih parent child lower
        rw [more, reverse_cons]
        refine ⟨ascends_append ascends ?_, rfl⟩
        rw [getLast?_reverse, first, child]

/-- What has to be shown for the assertions: the candidates are not all pruned, and there is a
tip.
-/
structure ConnectSafe (verdict : Pointer → Verdict) (start : Tree) (goal : Pointer)
    (Inv : Tree → Option Pointer → Prop)
    : Prop extends ConnectRule verdict start goal Inv where
  prunes : ∀ tree tip p, Inv tree tip → p ∈ start.path goal → (start.index p).pprev = tip
    → verdict p = .valid → ∃ after, (tree.withTip p).pruneBlockIndexCandidates = .ok after
  grounded : ∀ tree tip, Inv tree tip → tip ≠ none

theorem invalidChainFound_returns (isTip : tree.tip ≠ none)
    : tree.invalidChainFound p = .ok (tree.raiseBestInvalid p) := by
  rw [invalidChainFound, assertThat, throwIf, if_neg (not_not.mpr isTip)]
  rfl

section

variable (rule : ConnectSafe verdict start goal Inv) (formed : start.WellFormed)
include rule formed

theorem ConnectSafe.connectBlocks_returns {last} (holds : Inv tree tip)
    (onPath : ∀ p ∈ batch, p ∈ start.path goal) (ascends : start.Ascends tip batch)
    : ∃ result, connectBlocks verdict oldTip last batch tree = .ok result := by
  induction batch generalizing tree tip with
  | nil => exact ⟨_, rfl⟩
  | cons p rest ih =>
    obtain ⟨next, above⟩ := ascends
    have same := rule.same tree tip holds
    have isTip := (rule.active tree tip holds).tip (same.wellFormed formed)
    have here := onPath p mem_cons_self
    have parent : (tree.index p).pprev = tree.tip := by
      rw [same.field (·.pprev), next, isTip]
    have some : tree.tip ≠ none := by
      rw [isTip]
      exact rule.grounded tree tip holds
    rw [Tree.connectBlocks, connectTip, assertThat, throwIf, if_neg (not_not.mpr parent)]
    cases said : verdict p with
    | valid =>
      obtain ⟨pruned, prune⟩ := rule.prunes tree tip p holds here next said
      have further := rule.connect tree tip p pruned holds here next said prune
      obtain ⟨result, returns⟩ := ih further
        (fun q mem => onPath q (mem_cons_of_mem p mem)) above
      change ∃ result, ((tree.withTip p).pruneBlockIndexCandidates >>= _) = .ok result
      rw [prune, ok_bind]
      split
      · exact ⟨_, rfl⟩
      · exact ⟨result, returns⟩
    | invalid corruptionPossible =>
      cases corruptionPossible with
      | true => exact ⟨_, rfl⟩
      | false =>
        generalize isMarked :
          ((tree.modify p CBlockIndex.markFailedValid).eraseCandidate p).raiseBestInvalid p = marked
        have found : tree.invalidBlockFound p false = .ok marked :=
          isMarked ▸ invalidChainFound_returns some
        have still : marked.tip ≠ none := isMarked ▸ some
        refine ⟨(.invalidFound, marked.raiseBestInvalid last), ?_⟩
        simp only [found]
        change (marked.invalidChainFound last >>= _) = _
        rw [invalidChainFound_returns still]
        rfl
    | systemError => exact ⟨_, rfl⟩

theorem ConnectSafe.connectLoop_returns (skips : start.Skips) (holds : Inv tree tip)
    (enough : (start.index goal).nHeight < start.heightOf tip + fuel)
    : ∃ result, connectLoop verdict oldTip goal fuel (start.heightOf tip) tree = .ok result := by
  have below := fun t (isTip : tip = some t) => rule.onPath tree t (isTip ▸ holds)
  induction fuel generalizing tree tip with
  | zero =>
    obtain ⟨-, high, -⟩ := heightOf_bounds formed below
    omega
  | succ fuel ih =>
    have same := rule.same tree tip holds
    rw [Tree.connectLoop, same.field (·.nHeight)]
    simp only
    split
    next => exact ⟨_, rfl⟩
    next notYet =>
      generalize isTarget : min (start.heightOf tip + 32) ((start.index goal).nHeight : Int)
        = target
      obtain ⟨top, -, reached, higher, inTop, isTop, first, onPath⟩ :=
        batch_ok formed skips same below notYet isTarget
      have ascends := (blocksAbove_ascends formed inTop).1
      rw [isTop] at first onPath ⊢
      rw [same.blocksAbove] at first onPath ⊢
      obtain ⟨⟨progress, middle⟩, batch⟩ : ∃ result, connectBlocks verdict oldTip
          ((start.blocksAbove (some top) (start.heightOf tip)).getLastD goal)
          (start.blocksAbove (some top) (start.heightOf tip)).reverse tree = .ok result :=
        rule.connectBlocks_returns formed holds
          (fun p mem => onPath p (mem_reverse.mp mem)) ascends
      rw [batch, ok_bind]
      simp only
      split
      next isUnfinished =>
        have outcome := rule.connectBlocks formed holds
          (fun p mem => onPath p (mem_reverse.mp mem)) batch
        rw [getLast?_reverse, first, isUnfinished] at outcome
        cases outcome with
        | unfinished further =>
          rw [← reached]
          exact ih further (by omega) fun t isTip => rule.onPath _ t (isTip ▸ further)
      next => exact ⟨_, rfl⟩

end

end Tree

end Resistance.BlockTree

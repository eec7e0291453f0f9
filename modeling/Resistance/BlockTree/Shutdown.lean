import Resistance.BlockTree.Termination
import Resistance.BlockTree.BestValid

/-! When `ActivateBestChain` shuts the node down. The length of a reorganisation is counted from
the tip of the moment, which may be a block that was connected on the way to an invalid one. Where
no candidate is that far from the valid part of a better chain, the run ends with the best chain.
-/

namespace Resistance.BlockTree

open Primitives Lib.Forest Lib.Checks

namespace Tree

/-- How many blocks are disconnected on the way from one block to another. -/
def reorgLengthFrom (tree : Tree) (tip goal : Pointer) : Int :=
  { tree with chainActive := tree.chainOf tip }.reorgLength goal

/-- Every candidate is near to the tip and to the last valid block of each better candidate that
has an invalid block.
-/
structure Near (valid : Pointer → Bool) (maxReorgLength : Int) (tree : Tree) : Prop where
  active : ∀ p ∈ tree.setBlockIndexCandidates, tree.reorgLength p ≤ maxReorgLength
  valid : ∀ p ∈ tree.setBlockIndexCandidates, ∀ better ∈ tree.setBlockIndexCandidates,
    tree.worse p better = true → ∀ x ∈ tree.path better, valid x = false
    → ∀ last, (tree.index x).pprev = some last → (∀ q ∈ tree.path last, valid q = true)
    → tree.reorgLengthFrom last p ≤ maxReorgLength

variable {hashGenesisBlock : Uint256} {valid : Pointer → Bool} {maxReorgLength : Int}
  {start tree after : Tree} {goal p q tip best : Pointer}

/-- The fork is a matter of the paths and the tip. -/
theorem findFork_of_paths {other : Tree} {tip fork} (formed : tree.WellFormed) (skips : tree.Skips)
    (active : tree.ActiveIs tip) (formedNow : other.WellFormed) (skipsNow : other.Skips)
    (activeNow : other.ActiveIs tip) (paths : ∀ p, other.path p = tree.path p)
    (found : tree.findFork goal = some fork)
    : other.findFork goal = some fork := by
  obtain ⟨inGoal, t, rfl, inTip⟩ := findFork_below formed skips active found
  rw [← paths] at inGoal inTip
  obtain ⟨above, foundNow, below⟩ := findFork_greatest formedNow skipsNow activeNow inGoal
    ((activeNow.contains_iff formedNow).mpr inTip)
  obtain ⟨inGoalNow, _, ⟨⟩, inTipNow⟩ := findFork_below formedNow skipsNow activeNow foundNow
  rw [paths] at inGoalNow inTipNow below
  obtain ⟨_, isFork, belowFork⟩ := findFork_greatest formed skips active inGoalNow
    ((active.contains_iff formed).mpr inTipNow)
  cases found.symm.trans isFork
  have level : (tree.index fork).nHeight = (tree.index above).nHeight :=
    le_antisymm (formed.graded.height_le below) (formed.graded.height_le belowFork)
  rw [foundNow, formed.graded.eq_of_height_eq belowFork (formed.graded.self_mem fork) level.symm]

section

variable (same : SameLinks start tree) (formed : start.WellFormed) (skips : start.Skips)
include same formed skips

theorem SameLinks.findFork {tip : Option Pointer} (active : start.ActiveIs tip)
    (activeNow : tree.ActiveIs tip)
    : tree.findFork goal = start.findFork goal := by
  have formedNow := same.wellFormed formed
  have skipsNow := same.skips skips
  exact Option.ext fun _ =>
    ⟨findFork_of_paths formedNow skipsNow activeNow formed skips active fun p => (same.path p).symm,
      findFork_of_paths formed skips active formedNow skipsNow activeNow same.path⟩

theorem SameLinks.reorgLength (active : tree.ActiveIs (some tip))
    : tree.reorgLength goal = start.reorgLengthFrom tip goal := by
  have sameThere := sameLinks_chainActive start (start.chainOf tip)
  have activeThere : { start with chainActive := start.chainOf tip }.ActiveIs (some tip) :=
    ⟨same.blocks ▸ active.1, rfl⟩
  have sameNow : SameLinks { start with chainActive := start.chainOf tip } tree :=
    ⟨same.mapBlockIndex, same.unlinked, same.entry, same.haveData, same.outside⟩
  have formedThere := sameThere.wellFormed formed
  have fork : tree.findFork goal = { start with chainActive := start.chainOf tip }.findFork goal :=
    sameNow.findFork formedThere (sameThere.skips skips) activeThere active
  rw [reorgLengthFrom, Tree.reorgLength, Tree.reorgLength, fork,
    active.tip (same.wellFormed formed), activeThere.tip formedThere, sameNow.heightOf,
    sameNow.heightOf]

end

theorem reorgLength_of_tip (formed : tree.WellFormed) (skips : tree.Skips)
    (active : tree.ActiveIs (some tip)) (onPath : tip ∈ tree.path goal)
    : tree.reorgLength goal = 0 := by
  have fork : tree.findFork goal = some tip := findFork_of_tip formed skips active fun t isTip =>
    Option.some_inj.mp isTip ▸ onPath
  rw [reorgLength, fork, active.tip formed, sub_self, ite_self]

/-- The tip has not moved, or it is where a round has left it. -/
def Located (valid : Pointer → Bool) (start tree : Tree) (tip : Pointer) : Prop :=
  start.ActiveIs (some tip) ∨ Placed valid start tree tip

section

variable (ready : Ready hashGenesisBlock valid start)
include ready

section

variable (near : Near valid maxReorgLength start)
include near

section

variable (pos : 0 < maxReorgLength)
include pos

theorem Located.reorgLength_le (located : Located valid start tree tip) {searched}
    (search : Search tree searched) (racing : Racing valid start tree tip best)
    (racingNow : Racing valid start searched tip best) (selected : Selected start searched goal)
    : searched.reorgLength goal ≤ maxReorgLength := by
  have same := racingNow.same
  have formed := same.wellFormed ready.formed
  have candidate := racingNow.kept goal selected.candidate
  have length : searched.reorgLength goal = start.reorgLengthFrom tip goal :=
    same.reorgLength ready.formed ready.skips racingNow.active
  rcases located with unmoved | placed
  · rw [length, ← (SameLinks.refl start).reorgLength ready.formed ready.skips unmoved]
    exact near.active goal candidate
  · cases placed with
    | @onWay before best' chasing =>
      -- The chain that was selected before is still the greatest one.
      have still : before ∈ searched.setBlockIndexCandidates := by
        refine racingNow.complete before chasing.goalKnown.1 chasing.goalKnown.2
          (fun q ancestor => ?_) (chasing.greatest best racing.candidate)
        have sameTree := racing.same
        refine search.unfailed (sameTree.wellFormed ready.formed)
          (fun r below => ?_) ((sameTree.path before).symm ▸ ancestor)
        exact chasing.clean r (sameTree.path before ▸ below)
      have isSame : goal = before := start.rank_injective (le_antisymm
        (chasing.greatest goal (search.candidates goal selected.candidate))
        (selected.greatest before still))
      have onPath : tip ∈ searched.path goal := by
        rw [same.path, isSame]
        exact chasing.onPath
      rw [reorgLength_of_tip formed (same.skips ready.skips) racingNow.active onPath]
      exact pos.le
    | @stuck before x known onPath next isInvalid marked greatest =>
      have differs : goal ≠ before := by
        rintro rfl
        have clean := selected.clean x onPath
        rw [search.marks marked] at clean
        cases clean
      have lower : start.worse goal before = true := by
        refine worse_iff.mpr (lt_of_le_of_ne ?_ fun equal => differs (start.rank_injective equal))
        exact greatest goal (search.candidates goal selected.candidate)
      rw [length]
      exact near.valid goal candidate before known lower x onPath isInvalid tip next
        fun q ancestor => (racingNow.tipValid q ancestor).1

section

variable (racing : Racing valid start tree tip best)
include racing

section

variable (located : Located valid start tree tip)
include located

/-- Where every candidate is near, a round ends the run with the best chain, or leaves less to
do.
-/
theorem Racing.once_near
    : (∃ after tip, tree.activateOnce (oracle valid) maxReorgLength = .ok (.activated, after)
        ∧ BestActive valid start after tip)
      ∨ ∃ after tip' best', tree.activateOnce (oracle valid) maxReorgLength = .ok (.running, after)
        ∧ Racing valid start after tip' best' ∧ Located valid start after tip'
        ∧ after.remaining < tree.remaining := by
  have rooted : Rooted tree := {
    formed := racing.same.wellFormed ready.formed
    skips := racing.same.skips ready.skips
    active := ⟨some tip, racing.active⟩
    known := fun p candidate => racing.same.blocks ▸ ready.known p (racing.kept p candidate) }
  obtain ⟨goal, searched, found, search, racingNow, selected⟩ := racing.search ready
  have short := located.reorgLength_le ready near pos search racing racingNow selected
  obtain ⟨_, _, foundAgain, rest⟩ := racing.once ready pos
  cases found.symm.trans foundAgain
  rcases rest with ⟨ended, -⟩ | ⟨-, tooLong⟩ | ⟨⟨after, tip', best', once, further, placed⟩, -⟩
  · exact .inl ended
  · omega
  refine .inr ⟨after, tip', best', once, further, .inr placed, ?_⟩
  obtain ⟨-, -, less | ⟨_, _, _, x, -, -, -, -, -, -, corrupted⟩⟩ := rooted.activateOnce once
  · exact less
  · rw [oracle] at corrupted
    split at corrupted <;> cases corrupted

theorem Racing.run_near (rounds : Nat)
    : ∃ outcome after, tree.activateBestChain (oracle valid) maxReorgLength rounds
        = .ok (outcome, after)
      ∧ (outcome = .running ∨ outcome = .activated) := by
  induction rounds generalizing tree tip best with
  | zero => exact ⟨.running, tree, rfl, .inl rfl⟩
  | succ rounds ih =>
    rcases racing.once_near ready near pos located with
      ⟨after, tip', once, -⟩ | ⟨after, tip', best', once, further, placed, -⟩
    · refine ⟨.activated, after, ?_, .inr rfl⟩
      rw [activateBestChain, once]
      rfl
    · rw [activateBestChain_of_once once]
      exact ih further placed

/-- The rounds come to an end, since each of them leaves less to do. -/
theorem Racing.ends_near
    : ∃ rounds after tip, tree.activateBestChain (oracle valid) maxReorgLength rounds
        = .ok (.activated, after)
      ∧ BestActive valid start after tip := by
  induction isLeft : tree.remaining using WellFoundedLT.induction generalizing tree tip best with
  | ind left ih =>
    rcases racing.once_near ready near pos located with
      ⟨after, tip', once, isBest⟩ | ⟨middle, tip', best', once, further, placed, less⟩
    · refine ⟨1, after, tip', ?_, isBest⟩
      rw [activateBestChain, once]
      rfl
    obtain ⟨rounds, after, last, run, isBest⟩ := ih middle.remaining (isLeft ▸ less) further
      placed rfl
    refine ⟨rounds + 1, after, last, ?_, isBest⟩
    rw [activateBestChain_of_once once]
    exact run

end

end

end

end

end

/-- Where every candidate forks near the tip and near the last valid block of each better
candidate with an invalid block, the node is never shut down, and it ends with the best chain.
-/
theorem activateBestChain_near (ready : Ready hashGenesisBlock valid tree)
    (near : Near valid maxReorgLength tree) (pos : 0 < maxReorgLength)
    : (∀ rounds, ∃ outcome after, tree.activateBestChain (oracle valid) maxReorgLength rounds
          = .ok (outcome, after)
        ∧ (outcome = .running ∨ outcome = .activated))
      ∧ ∃ rounds after tip, tree.activateBestChain (oracle valid) maxReorgLength rounds
          = .ok (.activated, after)
        ∧ BestActive valid tree after tip := by
  obtain ⟨tip, racing⟩ := ready.racing
  have located : Located valid tree tree tip := .inl racing.active
  exact ⟨racing.run_near ready near pos located, racing.ends_near ready near pos located⟩

/-- The fork with an invalid last block: its other candidates are one block away. -/
theorem downloadedFork_near
    : (∀ rounds, ∃ outcome after,
        downloadedFork.activateBestChain (oracle fun p => p ≠ 4) 1 rounds = .ok (outcome, after)
        ∧ (outcome = .running ∨ outcome = .activated))
      ∧ ∃ rounds after tip,
        downloadedFork.activateBestChain (oracle fun p => p ≠ 4) 1 rounds
          = .ok (.activated, after)
        ∧ BestActive (fun p => p ≠ 4) downloadedFork after tip := by
  have near : Near (fun p => p ≠ 4) 1 downloadedFork := {
    active := by decide
    valid := by
      intro p candidate better isBetter lower x onPath isInvalid last parent _
      obtain rfl : x = 4 := by simpa using isInvalid
      cases parent
      have close : ∀ p ∈ downloadedFork.setBlockIndexCandidates,
          downloadedFork.reorgLengthFrom 3 p ≤ 1 := by
        decide
      exact close p candidate }
  exact activateBestChain_near downloadedFork_ready near (by decide)

/-- A chain of one block is active on top of the first one. A branch of four blocks has the most
work, one of three blocks less.
-/
def twoBranches : Tree :=
  { ofTable [row 1 none none 0 1 connectedStatus, row 2 (some 1) (some 1) 1 2 connectedStatus,
      row 3 (some 1) (some 1) 1 2, row 4 (some 3) (some 1) 2 3, row 5 (some 4) (some 3) 3 4,
      row 6 (some 5) (some 1) 4 5,
      row 7 (some 1) (some 1) 1 2, row 8 (some 7) (some 1) 2 3, row 9 (some 8) (some 7) 3 4] with
    setBlockIndexCandidates := [2, 4, 5, 6, 8, 9]
    chainActive := [some 1, some 2] }

theorem twoBranches_ready : Ready (numberedHash 1) (fun p => p ≠ 5) twoBranches := by
  have active : twoBranches.ActiveIs (some 2) := ⟨by decide, by decide⟩
  have audited : Audited (numberedHash 1) twoBranches :=
    audited_of_table 2 rfl rfl (by decide) (by decide) (by decide) active (by decide +kernel)
  exact audited.ready rfl active (by decide)

/-- Three blocks on top of the first one; the chain of the second block is active. -/
def threeTips (genesis tip : BlockStatus) (thirdWork : Nat) (candidates : List Pointer) : Tree :=
  { ofTable [row 1 none none 0 1 genesis, row 2 (some 1) (some 1) 1 3 tip,
      row 3 (some 1) (some 1) 1 thirdWork, row 4 (some 1) (some 1) 1 4] with
    setBlockIndexCandidates := candidates
    chainActive := [some 1, some 2] }

/-- The node is left with a tip that has less work than a valid chain without marks. -/
structure Missed (valid : Pointer → Bool) (tree : Tree) (better : Pointer) : Prop where
  audited : Audited (numberedHash 1) tree
  near : ∀ p ∈ tree.setBlockIndexCandidates, tree.reorgLength p ≤ 1
  clean : ∀ q ∈ tree.path better, valid q = true ∧ (tree.index q).nStatus.failed = false
  activated : ∃ after tip, tree.activateBestChain (oracle valid) 1 3 = .ok (.activated, after)
    ∧ after.tip = some tip ∧ (tree.index tip).nChainWork < (tree.index better).nChainWork

theorem missed_of_eval (tip better : Pointer) (candidates : List Pointer)
    (audited : Audited (numberedHash 1) tree)
    (near : ∀ p ∈ tree.setBlockIndexCandidates, tree.reorgLength p ≤ 1)
    (clean : ∀ q ∈ tree.path better, valid q = true ∧ (tree.index q).nStatus.failed = false)
    (evaluated
      : (tree.activateBestChain (oracle valid) 1 3).toOption.map
          (fun (outcome, after) => (outcome, after.tip, after.setBlockIndexCandidates))
        = some (.activated, some tip, candidates))
    (less : (tree.index tip).nChainWork < (tree.index better).nChainWork)
    : Missed valid tree better := by
  obtain ⟨after, run, isTip, -⟩ := returned_of_eval evaluated
  exact ⟨audited, near, clean, after, tip, run, isTip, less⟩

/-- Every candidate of the two branches forks one block below the tip. The third block of the
better branch is invalid; two blocks of it have been connected then, which are too many to be
disconnected for the other branch. A better chain is missed where the tip is invalid, where it has
been marked, and where the block below it has been pruned.
-/
theorem activateBestChain_far
    : (Ready (numberedHash 1) (fun p => p ≠ 5) twoBranches
        ∧ (∀ p ∈ twoBranches.setBlockIndexCandidates, twoBranches.reorgLength p ≤ 1)
        ∧ ∃ after, twoBranches.activateBestChain (oracle fun p => p ≠ 5) 1 3
            = .ok (.stopped .reorgTooLong, after)
          ∧ after.tip = some 4 ∧ after.setBlockIndexCandidates = [4, 9])
      ∧ Missed (fun p => p ≠ 2 ∧ p ≠ 4) (threeTips connectedStatus connectedStatus 2 [2, 4]) 3
      ∧ Missed (fun p => p ≠ 4)
          (threeTips connectedStatus { connectedStatus with failedValid := true } 2 [4]) 3
      ∧ Missed (fun p => p ≠ 4)
          { threeTips { valid := .scripts } connectedStatus 5 [2, 4] with
            mapBlocksUnlinked := [(1, 3)], fHavePruned := true } 3 := by
  refine ⟨⟨twoBranches_ready, by decide, returned_of_eval (by decide +kernel)⟩,
    missed_of_eval 1 3 [] ?_ (by decide) (by decide) (by decide +kernel) (by decide),
    missed_of_eval 1 3 [] ?_ (by decide) (by decide) (by decide +kernel) (by decide),
    missed_of_eval 2 3 [2] ?_ (by decide) (by decide) (by decide +kernel) (by decide)⟩
  all_goals
    exact audited_of_table 2 rfl rfl (by decide) (by decide) (by decide) ⟨by decide, by decide⟩
      (by decide +kernel)

end Tree

end Resistance.BlockTree

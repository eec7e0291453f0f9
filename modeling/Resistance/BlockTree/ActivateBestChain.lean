import Resistance.BlockTree.Switching

/-! The loop of `ActivateBestChain` of `main.cpp`, and what one step of it does with any verdicts
of `ConnectBlock`.
-/

namespace Resistance.BlockTree

open Lib.Forest Lib.Checks

/-- How `ActivateBestChain` stands. -/
inductive Outcome where
  | running
  /-- It has returned true. -/
  | activated
  /-- It has returned false, because a step has ended so. -/
  | stopped (result : StepResult)
  deriving DecidableEq

namespace Tree

/-- One round of the loop of `ActivateBestChain`. -/
def activateOnce (verdict : Pointer → Verdict) (maxReorgLength : Int) (tree : Tree)
    : Except String (Outcome × Tree) := do
  let (pindexMostWork, tree) ← tree.findMostWorkChain
  match pindexMostWork with
  | none => return (.activated, tree)
  | some pindexMostWork =>
    -- Whether we have anything to do at all.
    if tree.tip = some pindexMostWork then return (.activated, tree)
    let (result, tree) ← tree.activateBestChainStep verdict maxReorgLength pindexMostWork
    if result ≠ .done then return (.stopped result, tree)
    return (if tree.tip = some pindexMostWork then .activated else .running, tree)

/-- `ActivateBestChain`, after at most the given number of rounds. -/
def activateBestChain (verdict : Pointer → Verdict) (maxReorgLength : Int)
    : Nat → Tree → Except String (Outcome × Tree)
  | 0, tree => .ok (.running, tree)
  | rounds + 1, tree => do
    let (outcome, tree) ← tree.activateOnce verdict maxReorgLength
    if outcome = .running then activateBestChain verdict maxReorgLength rounds tree
    else return (outcome, tree)

variable {verdict : Pointer → Verdict} {maxReorgLength : Int} {tree after : Tree}
  {goal p q : Pointer} {tip : Option Pointer}

section

variable (formed : tree.WellFormed)
include formed

/-- A block off the active chain is met before it. -/
theorem mem_takeWhile_of_not_contains (active : tree.ActiveIs tip) (ancestor : q ∈ tree.path p)
    (inactive : tree.contains q = false)
    : q ∈ (tree.path p).takeWhile fun r => !tree.contains r := by
  rcases mem_path_cases formed ancestor with before | ⟨c, -, onChain, below⟩
  · exact before
  · obtain ⟨t, rfl, inChain⟩ := active.tip_of_contains formed onChain
    have absurd := (active.contains_iff formed).mpr (formed.graded.ancestor_trans inChain below)
    rw [inactive] at absurd
    cases absurd

section

variable (skips : tree.Skips) (active : tree.ActiveIs tip)
include skips active

/-- All active blocks of a chain are ancestors of the fork. -/
theorem findFork_greatest (ancestor : q ∈ tree.path goal) (onChain : tree.contains q = true)
    : ∃ fork, tree.findFork goal = some fork ∧ q ∈ tree.path fork := by
  obtain ⟨t, rfl, inChain⟩ := active.tip_of_contains formed onChain
  have low : (tree.index q).nHeight ≤ (tree.index t).nHeight := formed.graded.height_le inChain
  have length : tree.activeHeight = (tree.index t).nHeight := by
    rw [activeHeight, active.length formed]
    omega
  -- The search starts at an ancestor of the block that is not below `q`.
  obtain ⟨start, isStart, below⟩ : ∃ start, (if (tree.index goal).nHeight > tree.activeHeight
      then tree.getAncestor goal tree.activeHeight else some goal) = some start
      ∧ q ∈ tree.path start := by
    split
    next higher =>
      have notAbove : (tree.index t).nHeight ≤ (tree.index goal).nHeight := by omega
      obtain ⟨start, reached, inPath, level⟩ := getAncestor_ok formed skips notAbove
      rw [length]
      exact ⟨start, reached, formed.graded.mem_of_height_le ancestor inPath (by omega)⟩
    next => exact ⟨goal, rfl, ancestor⟩
  obtain ⟨fork, found⟩ : ∃ fork, (tree.path start).find? tree.contains = some fork :=
    Option.isSome_iff_exists.mp (List.find?_isSome.mpr ⟨q, below, onChain⟩)
  refine ⟨fork, ?_, formed.graded.mem_of_find found below onChain⟩
  rw [findFork, isStart]
  exact found

/-- Where blocks are still connected on top of the tip, the tip is the fork. -/
theorem findFork_of_tip (onPath : ∀ t, tip = some t → t ∈ tree.path goal)
    : tree.findFork goal = tip := by
  cases tip with
  | none =>
    cases found : tree.findFork goal with
    | none => rfl
    | some fork =>
      obtain ⟨-, _, absurd, -⟩ := findFork_below formed skips active found
      cases absurd
  | some t =>
    obtain ⟨fork, found, above⟩ := findFork_greatest formed skips active (onPath t rfl)
      ((active.contains_iff formed).mpr (formed.graded.self_mem t))
    obtain ⟨-, _, ⟨⟩, below⟩ := findFork_below formed skips active found
    have same : (tree.index t).nHeight = (tree.index fork).nHeight :=
      le_antisymm (formed.graded.height_le above) (formed.graded.height_le below)
    rw [found, formed.graded.eq_of_height_eq (formed.graded.self_mem t) below same]

end

/-- Disconnecting returns. -/
theorem disconnectTo_returns {t fork} (active : tree.ActiveIs (some t)) (below : fork ∈ tree.path t)
    {fuel} (enough : (tree.index t).nHeight < (tree.index fork).nHeight + fuel)
    : ∃ after, disconnectTo (some fork) fuel tree = .ok after := by
  induction fuel generalizing tree t with
  | zero =>
    have lower : (tree.index fork).nHeight ≤ (tree.index t).nHeight := formed.graded.height_le below
    omega
  | succ fuel ih =>
    rw [disconnectTo, active.tip formed]
    split
    next => exact ⟨tree, rfl⟩
    next goes =>
      rw [not_or] at goes
      rcases formed.graded.mem_lineage.mp below with rfl | ⟨parent, child, above⟩
      · exact absurd rfl goes.2
      have same := sameLinks_chainActive tree (tree.setTip (some parent)).chainActive
      have lower : (tree.setTip (some parent)).ActiveIs (some parent) :=
        active.setTip formed fun p isParent => formed.closed t p active.1 (child.trans isParent)
      have level := formed.graded.child child
      have fewer : (tree.index parent).nHeight < (tree.index fork).nHeight + fuel := by omega
      rw [disconnectTip, active.tip formed]
      simp only [child]
      exact ih (same.wellFormed formed) lower above fewer

/-- A step returns if connecting from the fork does. -/
theorem activateBestChainStep_returns (skips : tree.Skips) {t fork}
    (active : tree.ActiveIs (some t)) (found : tree.findFork goal = some fork)
    (pos : 0 < maxReorgLength)
    (connects : ∀ chain, { tree with chainActive := chain }.ActiveIs (some fork)
      → ∃ result, connectLoop verdict (some t) goal ((tree.index goal).nHeight + 2)
          (tree.heightOf (some fork)) { tree with chainActive := chain } = .ok result)
    : ∃ result, tree.activateBestChainStep verdict maxReorgLength goal = .ok result := by
  obtain ⟨-, _, ⟨⟩, below⟩ := findFork_below formed skips active found
  have length := active.length formed
  rw [activateBestChainStep, active.tip formed, found, assertThat, throwIf,
    if_neg (not_not.mpr pos)]
  by_cases tooLong : (if some t = none then 0
      else tree.heightOf (some t) - tree.heightOf (some fork)) > maxReorgLength
  · rw [if_pos tooLong]
    exact ⟨_, rfl⟩
  rw [if_neg tooLong]
  obtain ⟨middle, disconnected⟩ := disconnectTo_returns formed active below
    (show (tree.index t).nHeight < (tree.index fork).nHeight + (tree.chainActive.length + 1) by
      omega)
  obtain ⟨atFork, chain, rfl⟩ := disconnectTo_ok formed active
    (fun f isFork => Option.some_inj.mp isFork ▸ ⟨t, rfl, below⟩) disconnected
  obtain ⟨result, connected⟩ := connects chain atFork
  simp only [disconnected, ok_bind, connected]
  exact ⟨_, rfl⟩

end

end Tree

end Resistance.BlockTree

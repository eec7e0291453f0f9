import Resistance.BlockTree.CheckIndex
import Resistance.BlockTree.Headers

/-! `CChain` of `chain.h` and `chain.cpp`: the active chain as a vector of blocks by height.
After every `SetTip` it holds the ancestors of the tip, and `FindFork` returns a common block.
-/

namespace Resistance.BlockTree

open List Lib.Forest

namespace Tree

/-- `chainActive.Height()`. -/
def activeHeight (tree : Tree) : Int := tree.chainActive.length - 1

/-- The loop of `SetTip`, along the new tip and its ancestors. -/
def setTipLoop (tree : Tree) : List Pointer → List (Option Pointer) → List (Option Pointer)
  | [], vChain => vChain
  | pindex :: rest, vChain =>
    if vChain[(tree.index pindex).nHeight]?.join = some pindex then vChain
    else setTipLoop tree rest (vChain.set (tree.index pindex).nHeight (some pindex))

/-- `vChain.resize(size)`. -/
def resize (vChain : List (Option Pointer)) (size : Nat) : List (Option Pointer) :=
  vChain.take size ++ List.replicate (size - vChain.length) none

/-- `chainActive.SetTip(pindex)`. -/
def setTip (tree : Tree) (pindex : Option Pointer) : Tree :=
  {
    tree with
    chainActive := match pindex with
      | none => []
      | some pindex =>
        tree.setTipLoop (tree.path pindex)
          (resize tree.chainActive ((tree.index pindex).nHeight + 1))
  }

/-- `chainActive.FindFork(pindex)`. -/
def findFork (tree : Tree) (pindex : Pointer) : Option Pointer :=
  let start :=
    if (tree.index pindex).nHeight > tree.activeHeight then
      tree.getAncestor pindex tree.activeHeight
    else some pindex
  start.bind fun start => (tree.path start).find? tree.contains

/-- The ancestors of a block by height. -/
def chainOf (tree : Tree) (p : Pointer) : List (Option Pointer) := (tree.path p).reverse.map some

variable {tree : Tree}

section

variable (formed : tree.WellFormed)
include formed

variable {p q : Pointer}

theorem chainOf_root (root : (tree.index p).pprev = none)
    : tree.chainOf p = [some p] := by
  rw [chainOf, formed.path_root root]
  rfl

theorem chainOf_child (child : (tree.index p).pprev = some q)
    : tree.chainOf p = tree.chainOf q ++ [some p] := by
  rw [chainOf, formed.path_child child, reverse_cons, map_append]
  rfl

theorem length_chainOf (p : Pointer)
    : (tree.chainOf p).length = (tree.index p).nHeight + 1 := by
  rw [chainOf, length_map, length_reverse]
  exact formed.graded.length_lineage p

/-- The chain of an ancestor is the beginning of the chain. -/
theorem take_chainOf (ancestor : q ∈ tree.path p)
    : (tree.chainOf p).take ((tree.index q).nHeight + 1) = tree.chainOf q := by
  obtain ⟨before, split⟩ : tree.path q <:+ tree.path p := formed.graded.lineage_suffix ancestor
  rw [chainOf, ← split, reverse_append, map_append, ← length_chainOf formed q]
  exact take_left

theorem chainOf_getLast? (p : Pointer) : (tree.chainOf p).getLast? = some (some p) := by
  cases child : (tree.index p).pprev with
  | none => rw [chainOf_root formed child, getLast?_singleton]
  | some q => rw [chainOf_child formed child, getLast?_concat]

/-- The chain holds at each height the ancestor of that height. -/
theorem chainOf_getElem? {height}
    : (tree.chainOf p)[height]? = some (some q)
      ↔ q ∈ tree.path p ∧ (tree.index q).nHeight = height := by
  have placed : ∀ {r}, r ∈ tree.path p
      → (tree.chainOf p)[(tree.index r).nHeight]? = some (some r) := by
    intro r ancestor
    have last := chainOf_getLast? formed r
    rw [getLast?_eq_getElem?, length_chainOf formed, Nat.add_sub_cancel] at last
    rw [← getElem?_take_of_lt (Nat.lt_succ_self _), take_chainOf formed ancestor, last]
  constructor
  · intro entry
    have inside := (List.getElem?_eq_some_iff.mp entry).1
    rw [length_chainOf formed] at inside
    obtain ⟨r, ancestor, rfl⟩ := formed.graded.exists_at_height (Nat.lt_succ_iff.mp inside)
    cases (placed ancestor).symm.trans entry
    exact ⟨ancestor, rfl⟩
  · rintro ⟨ancestor, rfl⟩
    exact placed ancestor

/-- Below every block of the vector is the chain of that block. -/
def Consistent (tree : Tree) (vChain : List (Option Pointer)) : Prop :=
  ∀ height q, vChain[height]? = some (some q) → vChain.take (height + 1) = tree.chainOf q

/-- The loop stops at a block that is in its place, below which nothing has to change. -/
theorem setTipLoop_eq {vChain} (long : (tree.index p).nHeight < vChain.length)
    (consistent : tree.Consistent (vChain.take ((tree.index p).nHeight + 1)))
    : tree.setTipLoop (tree.path p) vChain
      = tree.chainOf p ++ vChain.drop ((tree.index p).nHeight + 1) := by
  induction p using formed.graded.induction generalizing vChain with
  | step p ih =>
    have placed : vChain[(tree.index p).nHeight]?.join = some p
        → vChain = tree.chainOf p ++ vChain.drop ((tree.index p).nHeight + 1) := by
      intro inPlace
      have entry : (vChain.take ((tree.index p).nHeight + 1))[(tree.index p).nHeight]?
          = some (some p) := by
        rw [getElem?_take_of_lt (Nat.lt_succ_self _)]
        exact Option.join_eq_some_iff.mp inPlace
      have chain := consistent _ p entry
      rw [take_take, Nat.min_self] at chain
      rw [← chain, take_append_drop]
    cases child : (tree.index p).pprev with
    | none =>
      have level := formed.graded.root child
      rw [formed.path_root child, setTipLoop]
      split
      next inPlace => exact placed inPlace
      next =>
        rw [chainOf_root formed child, level]
        cases vChain with
        | nil => simp at long
        | cons first rest => rfl
    | some q =>
      have level := formed.graded.child child
      rw [formed.path_child child, setTipLoop]
      split
      next inPlace => exact placed inPlace
      next =>
        have untouched : (vChain.set (tree.index p).nHeight (some p)).take
            ((tree.index q).nHeight + 1) = vChain.take ((tree.index q).nHeight + 1) := by
          rw [take_set_of_le (by omega)]
        have below : tree.Consistent (vChain.take ((tree.index q).nHeight + 1)) := by
          intro height r entry
          have inside := (List.getElem?_eq_some_iff.mp entry).1
          rw [length_take] at inside
          have chain := consistent height r (by
            rw [getElem?_take_of_lt (by omega)] at entry ⊢
            exact entry)
          rw [take_take, Nat.min_eq_left (by omega)] at chain ⊢
          exact chain
        rw [ih q child (by rw [length_set]; omega) (untouched ▸ below),
          chainOf_child formed child, append_assoc, level]
        have inside : (tree.index q).nHeight + 1
            < (vChain.set ((tree.index q).nHeight + 1) (some p)).length := by
          rw [length_set]
          omega
        rw [drop_eq_getElem_cons inside, getElem_set_self, drop_set_of_lt (Nat.lt_succ_self _)]
        rfl

/-- The active chain is that of a block, or empty. -/
def ActiveIs (tree : Tree) : Option Pointer → Prop
  | none => tree.chainActive = []
  | some p => p ∈ tree.blocks ∧ tree.chainActive = tree.chainOf p

theorem ActiveIs.consistent {tip} (active : tree.ActiveIs tip) (size : Nat)
    : tree.Consistent (resize tree.chainActive size) := by
  intro height q entry
  -- Beyond the chain there is no block.
  have inChain : height < size ∧ tree.chainActive[height]? = some (some q) := by
    rw [resize] at entry
    by_cases inside : height < (tree.chainActive.take size).length
    · rw [getElem?_append_left inside] at entry
      rw [length_take] at inside
      rw [getElem?_take_of_lt (by omega)] at entry
      exact ⟨by omega, entry⟩
    · rw [getElem?_append_right (by omega), getElem?_replicate] at entry
      split at entry <;> cases entry
  obtain ⟨small, entry⟩ := inChain
  cases tip with
  | none =>
    rw [show tree.chainActive = [] from active] at entry
    cases entry
  | some p =>
    have chain := active.2
    have long := (List.getElem?_eq_some_iff.mp entry).1
    rw [chain] at entry
    obtain ⟨ancestor, level⟩ := (chainOf_getElem? formed).mp entry
    rw [resize, take_append_of_le_length (by rw [length_take]; omega), take_take,
      Nat.min_eq_left (by omega), chain, ← level, take_chainOf formed ancestor]

/-- `SetTip` makes the chain of any block the active one. -/
theorem ActiveIs.setTip {tip} (active : tree.ActiveIs tip) {pindex}
    (known : ∀ p, pindex = some p → p ∈ tree.blocks)
    : (tree.setTip pindex).ActiveIs pindex := by
  cases pindex with
  | none => exact rfl
  | some p =>
    refine ⟨known p rfl, ?_⟩
    change tree.setTipLoop (tree.path p) (resize tree.chainActive _) = tree.chainOf p
    have length : (resize tree.chainActive ((tree.index p).nHeight + 1)).length
        = (tree.index p).nHeight + 1 := by
      rw [resize, length_append, length_take, length_replicate]
      omega
    rw [setTipLoop_eq formed (by omega), drop_of_length_le (by omega), append_nil]
    rw [take_of_length_le (by omega)]
    exact active.consistent formed _

theorem ActiveIs.tip {tip} (active : tree.ActiveIs tip)
    : tree.tip = tip := by
  cases tip with
  | none =>
    rw [Tree.tip, show tree.chainActive = [] from active]
    rfl
  | some p =>
    rw [Tree.tip, active.2, chainOf_getLast? formed]
    rfl

theorem ActiveIs.length (active : tree.ActiveIs (some p))
    : tree.chainActive.length = (tree.index p).nHeight + 1 := by
  rw [active.2, length_chainOf formed]

theorem ActiveIs.contains_iff (active : tree.ActiveIs (some p))
    : tree.contains q = true ↔ q ∈ tree.path p := by
  rw [contains, decide_eq_true_eq, Option.join_eq_some_iff, active.2, chainOf_getElem? formed,
    and_iff_left rfl]

theorem ActiveIs.tip_of_contains {tip} (active : tree.ActiveIs tip)
    (onChain : tree.contains q = true)
    : ∃ t, tip = some t ∧ q ∈ tree.path t := by
  cases tip with
  | none =>
    rw [contains, show tree.chainActive = [] from active] at onChain
    cases onChain
  | some t => exact ⟨t, rfl, (active.contains_iff formed).mp onChain⟩

end

/-- The fork is a common ancestor of the block and the tip. -/
theorem findFork_below (formed : tree.WellFormed) (skips : tree.Skips) {tip}
    (active : tree.ActiveIs tip) {p fork} (found : tree.findFork p = some fork)
    : fork ∈ tree.path p ∧ ∃ t, tip = some t ∧ fork ∈ tree.path t := by
  obtain ⟨start, isStart, walked⟩ := Option.bind_eq_some_iff.mp found
  have ancestor : start ∈ tree.path p := by
    split at isStart
    next higher =>
      by_cases empty : tree.activeHeight < 0
      · rw [getAncestor, if_pos (.inr empty)] at isStart
        cases isStart
      have level : ((tree.activeHeight.toNat : Nat) : Int) = tree.activeHeight := by omega
      have below : tree.activeHeight.toNat ≤ (tree.index p).nHeight := by omega
      obtain ⟨q, reached, inPath, -⟩ := getAncestor_ok formed skips below
      rw [level, isStart] at reached
      cases reached
      exact inPath
    next =>
      cases isStart
      exact formed.graded.self_mem p
  exact ⟨formed.graded.ancestor_trans ancestor (mem_of_find?_eq_some walked),
    active.tip_of_contains formed (find?_some walked)⟩

end Tree

end Resistance.BlockTree

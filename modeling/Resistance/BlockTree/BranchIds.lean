import Resistance.BlockTree.Rewind

/-! The branch ids that `ConnectBlock` caches, and that `CDiskBlockIndex` and `LoadBlockIndexDB`
save and restore, are those of the upgrade table: nothing is rewound under the same parameters.
-/

namespace Resistance.BlockTree

open Primitives Consensus Function List

namespace RewindContext

variable (context : RewindContext) {tree : Tree}

/-- Nothing is disconnected from a chain that is sufficiently validated. -/
theorem rewindChain_sufficient {t} (formed : tree.WellFormed) (active : tree.ActiveIs (some t))
    (all : ∀ p ∈ tree.path t, 0 < (tree.index p).nHeight → context.sufficient tree p = true)
    : context.rewindChain tree = ⟨true, false, tree⟩ := by
  have length := active.length formed
  have nHeight : context.nHeight tree = tree.chainActive.length := by
    rw [nHeight_eq, findIdx_eq_length.mpr, length_drop]
    · omega
    intro pindex mem
    obtain ⟨i, entry⟩ := mem_iff_getElem?.mp mem
    rw [getElem?_drop, active.2] at entry
    obtain ⟨p, -, rfl⟩ := mem_map.mp (mem_of_getElem? entry)
    obtain ⟨ancestor, level⟩ := (Tree.chainOf_getElem? formed).mp entry
    simp [all p ancestor (by omega)]
  have short : context.tooLong tree = false := by
    rw [tooLong, rewindLength, Bool.and_eq_false_iff, decide_eq_false_iff_not]
    exact .inl (by omega)
  rw [rewindChain, short, nHeight, length, disconnectLoop, active.tip formed]
  dsimp only
  rw [if_pos length.le]
  rfl

end RewindContext

/-- `CDiskBlockIndex` has the branch id only of blocks that activate an upgrade. -/
def UpgradeMark.saved (mark : UpgradeMark) : UpgradeMark :=
  if mark.activatesUpgrade then mark else {}

theorem UpgradeMark.saved_activates (mark : UpgradeMark)
    : mark.saved.activatesUpgrade = mark.activatesUpgrade := by
  rw [saved]
  split
  next => rfl
  next inactive => exact (Bool.not_eq_true _ ▸ inactive).symm

/-- What blocks are marked with, and which of them are valid up to `BLOCK_VALID_SCRIPTS`. -/
structure BranchIds where
  mark : Pointer → UpgradeMark := fun _ => {}
  validScripts : Pointer → Bool := fun _ => false

namespace BranchIds

variable (params : Params) (tree : Tree)

/-- `ConnectBlock`, which returns early for the genesis block. A block that has undo data and is
valid already it leaves as it is, as if it were not connected.
-/
def connectBlock (ids : BranchIds) (pindex : Pointer) : BranchIds :=
  match (tree.index pindex).pprev with
  | none => ids
  | some pprev =>
    let nHeight := (tree.index pindex).nHeight
    let mark : UpgradeMark :=
      if isActivationHeightForAnyUpgrade params nHeight then
        ⟨true, some (currentEpochBranchId params nHeight)⟩
      else { ids.mark pindex with nCachedBranchId := (ids.mark pprev).nCachedBranchId }
    ⟨Function.update ids.mark pindex mark, Function.update ids.validScripts pindex true⟩

/-- The branch id that `LoadBlockIndexDB` gives a block, from the block and its ancestors. -/
def loadId (ids : BranchIds) (failed : Pointer → Bool) : List Pointer → Option UInt32
  | [] => none
  | pindex :: ancestors =>
    if (tree.index pindex).pprev.isNone then some (nBranchId .sprout)
    else match (ids.mark pindex).saved.nCachedBranchId with
      | some branchId => some branchId
      | none =>
        if ids.validScripts pindex && !failed pindex then loadId ids failed ancestors else none

/-- The block index is saved and loaded again. -/
def reload (ids : BranchIds) (failed : Pointer → Bool) : BranchIds :=
  { ids with
    mark pindex :=
      ⟨(ids.mark pindex).saved.activatesUpgrade, ids.loadId tree failed (tree.path pindex)⟩ }

/-- A run of a node under one upgrade table: blocks are connected, in any order and again after
they were disconnected, and the node restarts while any blocks are marked as failed.
-/
inductive Run : BranchIds → Prop
  | start : Run {}
  | connect {ids : BranchIds} (run : Run ids) (pindex : Pointer)
    : Run (ids.connectBlock params tree pindex)
  | restart {ids : BranchIds} (run : Run ids) (failed : Pointer → Bool)
    : Run (ids.reload tree failed)

/-- Only Sprout is active at the genesis block, or an upgrade activates right after it. -/
def StartsPlainly : Prop :=
  currentEpoch params 0 = .sprout ∨ isActivationHeightForAnyUpgrade params 1 = true

/-- The id of a block by the upgrade table. -/
def expected (p : Pointer) : UInt32 :=
  if (tree.index p).pprev.isNone then nBranchId .sprout
  else currentEpochBranchId params (tree.index p).nHeight

/-- The mark of a block has the expected id, or none and does not activate an upgrade. -/
structure Fits (p : Pointer) (valid : Bool) (mark : UpgradeMark) : Prop where
  id : mark.nCachedBranchId = some (expected params tree p)
    ∨ mark.nCachedBranchId = none ∧ mark.activatesUpgrade = false
  flag : mark.activatesUpgrade = true
    ↔ valid = true ∧ isActivationHeightForAnyUpgrade params (tree.index p).nHeight = true

variable {params tree}

/-- A height that activates nothing has the epoch of the height below it. -/
theorem currentEpoch_eq {nHeight}
    (quiet : isActivationHeightForAnyUpgrade params (nHeight + 1 : Nat) = false)
    : currentEpoch params (nHeight + 1 : Nat) = currentEpoch params nHeight := by
  rw [isActivationHeightForAnyUpgrade, Bool.and_eq_false_iff] at quiet
  have same : ∀ idx ∈ [UpgradeIndex.testdummy, .overwinter, .sapling, .blossom],
      params.networkUpgradeActive (nHeight + 1 : Nat) idx
        = params.networkUpgradeActive nHeight idx := by
    unfold Params.networkUpgradeActive Params.networkUpgradeState
    grind
  have epoch (height : Int) : currentEpoch params height
      = ([.blossom, .sapling, .overwinter, .testdummy].find?
        (params.networkUpgradeActive height)).getD .sprout := by
    change (find? _ ([_, _, _, _] ++ [_])).getD _ = _
    rw [find?_append]
    generalize find? _ [_, _, _, _] = found
    cases found with
    | some idx => rfl
    | none =>
      rw [find?_singleton]
      split <;> rfl
  simp only [epoch, find?_cons, find?_nil, same, mem_cons, true_or, or_true]

section

variable {ids : BranchIds} {failed : Pointer → Bool} (formed : tree.WellFormed)
  (base : StartsPlainly params)
include formed base

theorem expected_child {p q} (child : (tree.index p).pprev = some q)
    (quiet : isActivationHeightForAnyUpgrade params (tree.index p).nHeight = false)
    : expected params tree p = expected params tree q := by
  have level := formed.graded.child child
  rw [level] at quiet
  have epoch := currentEpoch_eq quiet
  rw [expected, child, expected, level, currentEpochBranchId, epoch]
  cases parent : (tree.index q).pprev with
  | some r => rfl
  | none =>
    have root : (tree.index q).nHeight = 0 := formed.graded.root parent
    rw [root] at quiet ⊢
    have sprout := base.resolve_right (by simpa using quiet)
    exact congrArg nBranchId sprout

variable (fits : ∀ p, Fits params tree p (ids.validScripts p) (ids.mark p))
include fits

theorem connectBlock_fits (pindex p : Pointer)
    : Fits params tree p ((ids.connectBlock params tree pindex).validScripts p)
        ((ids.connectBlock params tree pindex).mark p) := by
  rw [connectBlock]
  split
  next => exact fits p
  next pprev child =>
    by_cases same : p = pindex
    · subst same
      dsimp only
      rw [update_self, update_self]
      split
      next activates =>
        refine ⟨.inl ?_, iff_of_true rfl ⟨rfl, activates⟩⟩
        rw [expected, child]
        rfl
      next quiet =>
        have inactive : (ids.mark p).activatesUpgrade ≠ true := fun active =>
          quiet ((fits p).flag.mp active).2
        refine ⟨?_, iff_of_false inactive fun active => quiet active.2⟩
        rw [expected_child formed base child (Bool.not_eq_true _ ▸ quiet)]
        exact (fits pprev).id.imp_right fun missing => ⟨missing.1, Bool.not_eq_true _ ▸ inactive⟩
    · dsimp only
      rw [update_of_ne same, update_of_ne same]
      exact fits p

/-- A block is loaded with the expected id, or an ancestor of it is not valid. -/
theorem loadId_cases (p : Pointer)
    : ids.loadId tree failed (tree.path p) = some (expected params tree p)
      ∨ ids.loadId tree failed (tree.path p) = none ∧ (ids.mark p).activatesUpgrade = false
        ∧ ∃ a ∈ tree.path p, 0 < (tree.index a).nHeight
          ∧ ¬ (ids.validScripts a = true ∧ failed a = false) := by
  induction p using formed.graded.induction with
  | step p ih =>
    cases child : (tree.index p).pprev with
    | none =>
      rw [formed.path_root child, loadId, expected, child]
      exact .inl rfl
    | some q =>
      have level := formed.graded.child child
      rw [formed.path_child child, loadId, child, UpgradeMark.saved]
      cases activates : (ids.mark p).activatesUpgrade with
      | true =>
        rw [if_pos rfl, (fits p).id.resolve_right (by simp [activates])]
        exact .inl rfl
      | false =>
        dsimp only [Option.isNone_some]
        rw [if_neg Bool.false_ne_true]
        by_cases valid : ids.validScripts p = true ∧ failed p = false
        · have quiet : isActivationHeightForAnyUpgrade params (tree.index p).nHeight ≠ true := by
            intro isActivation
            rw [(fits p).flag.mpr ⟨valid.1, isActivation⟩] at activates
            cases activates
          rw [valid.1, valid.2, expected_child formed base child (Bool.not_eq_true _ ▸ quiet)]
          refine (ih q child).imp_right ?_
          rintro ⟨missing, -, a, ancestor, invalid⟩
          exact ⟨missing, rfl, a, mem_cons_of_mem p ancestor, invalid⟩
        · refine .inr ⟨if_neg ?_, rfl, p, mem_cons_self, by omega, valid⟩
          simpa using valid

end

theorem Run.fits {ids} (run : Run params tree ids) (formed : tree.WellFormed)
    (base : StartsPlainly params)
    : ∀ p, Fits params tree p (ids.validScripts p) (ids.mark p) := by
  induction run with
  | start => exact fun p => ⟨.inr ⟨rfl, rfl⟩, iff_of_false nofun nofun⟩
  | connect _ pindex ih => exact connectBlock_fits formed base ih pindex
  | restart _ failed ih =>
    intro p
    simp only [reload, UpgradeMark.saved_activates]
    refine ⟨(loadId_cases formed base ih p).imp_right ?_, (ih p).flag⟩
    rintro ⟨missing, inactive, -⟩
    exact ⟨missing, inactive⟩

/-- After a run under one upgrade table and a restart, the blocks of a connected chain above genesis
have the branch ids and flags of the table, so nothing is disconnected under the same parameters.
-/
theorem reload_matches {ids : BranchIds} {failed : Pointer → Bool} {t : Pointer}
    (base : StartsPlainly params) (run : Run params tree ids) (formed : tree.WellFormed)
    (active : tree.ActiveIs (some t)) (connected : ∀ p ∈ tree.path t, 0 < (tree.index p).nHeight
      → ids.validScripts p = true ∧ failed p = false)
    : (∀ p ∈ tree.path t, 0 < (tree.index p).nHeight
        → (ids.reload tree failed).mark p = tableMark params (tree.index p).nHeight)
      ∧ ∀ context : RewindContext,
        { context with params, mark := (ids.reload tree failed).mark }.rewindChain tree
          = ⟨true, false, tree⟩ := by
  have fits := run.fits formed base
  have marks : ∀ p ∈ tree.path t, 0 < (tree.index p).nHeight
      → (ids.reload tree failed).mark p = tableMark params (tree.index p).nHeight := by
    intro p ancestor above
    have flag := (fits p).flag
    rw [(connected p ancestor above).1, and_iff_right rfl] at flag
    simp only [reload, UpgradeMark.saved_activates]
    rcases loadId_cases formed base fits p with loaded | ⟨-, -, a, higher, high, invalid⟩
    · rw [loaded, expected, if_neg fun root =>
        above.ne' (formed.graded.root (Option.isNone_iff_eq_none.mp root)),
        Bool.eq_iff_iff.mpr flag]
      rfl
    · exact absurd (connected a (formed.graded.ancestor_trans ancestor higher) high) invalid
  refine ⟨marks, fun context => RewindContext.rewindChain_sufficient _ formed active ?_⟩
  intro p ancestor above
  exact RewindContext.sufficient_iff.mpr (marks p ancestor above)

open RewindContext in
theorem reload_matches_main
    : ∃ ids, Run .main overwinterChain ids
      ∧ { earlierOverwinter 100 with
          params := .main
          mark := (ids.reload overwinterChain fun _ => false).mark }.rewindChain overwinterChain
        = ⟨true, false, overwinterChain⟩ := by
  have run : Run .main overwinterChain _ := .connect (.connect (.connect .start 2) 3) 4
  exact ⟨_, run, (reload_matches (.inr (by decide)) run overwinterChain_formed
    overwinterChain_active (by decide)).2 _⟩

end BranchIds

end Resistance.BlockTree

import Resistance.Builder.ChainRound

/-! The anchors that `HaveShieldedRequirements` accepts, and a chaining loop all of whose joinsplits
spend a note or the change before: every anchor of such a loop is accepted.
-/

namespace Resistance.Builder

open List Primitives Consensus Zcash Validation Coins Sprout Lib Lib.Checks

variable {env : BuilderEnv} {setup : ChainSetup} {s start : Chaining} {round : Round}
  {made : JoinSplitMade} {outputMap : Fin 2 × Fin 2} {crypto : SproutCrypto}
  {coinsView : ShieldedState} {earlier vJoinSplit : List JSDescription}

/-- The trees that are accepted for an anchor, in a transaction with the earlier joinsplits. -/
inductive Accepts (crypto : SproutCrypto) (coinsView : ShieldedState)
    (earlier : List JSDescription) : Uint256 → SproutMerkleTree → Prop
  | ofView {anchor : Uint256} {tree : SproutMerkleTree}
      (found : coinsView.getAnchorAt anchor = some tree)
      : Accepts crypto coinsView earlier anchor tree
  | ofJoinSplit {joinsplit : JSDescription} {tree next : SproutMerkleTree}
      (mem : joinsplit ∈ earlier)
      (accepted : Accepts crypto coinsView earlier joinsplit.anchor tree)
      (appended : tree.appendAll crypto.hash sproutTreeDepth joinsplit.commitments.toList
        = .ok next)
      : Accepts crypto coinsView earlier (next.root crypto.hash sproutTreeDepth) next

/-- The Sprout anchor condition of `HaveShieldedRequirements`: each anchor is one of the view, or
the root after the commitments of an earlier joinsplit were appended to an accepted tree.
-/
def AnchorsMet (crypto : SproutCrypto) (coinsView : ShieldedState)
    (vJoinSplit : List JSDescription) : Prop :=
  ∀ before joinsplit after, vJoinSplit = before ++ joinsplit :: after
    → ∃ tree, Accepts crypto coinsView before joinsplit.anchor tree

variable {tree : SproutMerkleTree} {joinsplit : JSDescription}

theorem Accepts.mono {later anchor} (accepts : Accepts crypto coinsView earlier anchor tree)
    (more : earlier ⊆ later)
    : Accepts crypto coinsView later anchor tree := by
  induction accepts with
  | ofView found => exact .ofView found
  | ofJoinSplit mem _ appended ih => exact .ofJoinSplit (more mem) ih appended

/-- The loop of `HaveShieldedRequirements` only goes through accepted trees. -/
theorem accepts_of_haveJoinSplits {intermediates}
    (known : ∀ anchor tree, intermediates.lookup anchor = some tree
      → Accepts crypto coinsView earlier anchor tree)
    (met : coinsView.haveJoinSplits crypto.hash sproutTreeDepth intermediates vJoinSplit
      = .ok true) {before after} (isSplit : vJoinSplit = before ++ joinsplit :: after)
    : ∃ tree, Accepts crypto coinsView (earlier ++ before) joinsplit.anchor tree := by
  induction vJoinSplit generalizing earlier intermediates before with
  | nil => simp at isSplit
  | cons first vJoinSplit ih =>
    unfold ShieldedState.haveJoinSplits at met
    split at met
    · cases met
    split at met
    · cases met
    next tree found =>
      have accepted : Accepts crypto coinsView earlier first.anchor tree := by
        rcases Option.or_eq_some_iff.mp found with inside | ⟨-, outside⟩
        · exact known _ _ inside
        · exact .ofView outside
      rcases cons_eq_append_iff.mp isSplit with ⟨rfl, same⟩ | ⟨before, rfl, rest⟩
      · cases same
        exact ⟨tree, (append_nil earlier).symm ▸ accepted⟩
      obtain ⟨next, appended, later⟩ := bind_ok.mp met
      have more := subset_append_left earlier [first]
      rw [append_cons]
      refine ih (fun anchor tree lookup => ?_) later rest
      split at lookup
      · exact (known _ _ lookup).mono more
      · rcases FiniteMap.lookup_insert_cases lookup with ⟨rfl, rfl⟩ | ⟨-, before⟩
        · exact .ofJoinSplit (by simp) (accepted.mono more) (mapError_ok.mp appended)
        · exact (known _ _ before).mono more

/-- What `HaveShieldedRequirements` accepts meets the anchor condition. -/
theorem anchorsMet_of_haveJoinSplits
    (met : coinsView.haveJoinSplits crypto.hash sproutTreeDepth ∅ vJoinSplit = .ok true)
    : AnchorsMet crypto coinsView vJoinSplit := by
  intro before joinsplit after isSplit
  have nothing : ∀ anchor tree, (∅ : FiniteMap Uint256 MerkleTree).lookup anchor = some tree
      → Accepts crypto coinsView [] anchor tree := by
    intro anchor tree lookup
    cases lookup
  exact accepts_of_haveJoinSplits nothing met isSplit

theorem AnchorsMet.nil : AnchorsMet crypto coinsView [] := by
  intro before joinsplit after isSplit
  simp at isSplit

theorem AnchorsMet.append (met : AnchorsMet crypto coinsView vJoinSplit)
    (accepts : Accepts crypto coinsView vJoinSplit joinsplit.anchor tree)
    : AnchorsMet crypto coinsView (vJoinSplit ++ [joinsplit]) := by
  intro before other after isSplit
  rcases eq_nil_or_concat after with rfl | ⟨rest, last, rfl⟩
  · obtain ⟨rfl, isOther⟩ := append_inj' isSplit rfl
    cases isOther
    exact ⟨tree, accepts⟩
  · rw [concat_eq_append, ← cons_append, ← append_assoc] at isSplit
    obtain ⟨rfl, -⟩ := append_inj' isSplit rfl
    exact met before other rest rfl

theorem AnchorsMet.accepts (met : AnchorsMet crypto coinsView vJoinSplit)
    (mem : joinsplit ∈ vJoinSplit)
    : ∃ tree, Accepts crypto coinsView vJoinSplit joinsplit.anchor tree := by
  obtain ⟨before, after, rfl⟩ := append_of_mem mem
  obtain ⟨tree, accepts⟩ := met before joinsplit after rfl
  exact ⟨tree, accepts.mono (subset_append_left _ _)⟩

/-- The anchors of the view are those of trees that were made by appending. -/
def ViewOfTrees (crypto : SproutCrypto) (coinsView : ShieldedState) : Prop :=
  ∀ anchor tree, coinsView.getAnchorAt anchor = some tree → ∃ leaves, TreeOf crypto leaves tree

theorem Accepts.treeOf {anchor} (accepts : Accepts crypto coinsView earlier anchor tree)
    (trees : ViewOfTrees crypto coinsView)
    : ∃ leaves, TreeOf crypto leaves tree := by
  induction accepts with
  | ofView found => exact trees _ _ found
  | @ofJoinSplit joinsplit tree next _ _ appended ih =>
    obtain ⟨leaves, before⟩ := ih
    refine ⟨leaves ++ joinsplit.commitments.toList, ?_⟩
    unfold TreeOf IncrementalMerkleTree.appendAll
    rw [foldlM_append]
    exact bind_ok.mpr ⟨tree, before, appended⟩

/-- The anchors of the joinsplits so far are accepted, and the loop knows accepted trees only. -/
structure Anchored (crypto : SproutCrypto) (coinsView : ShieldedState) (s : Chaining) : Prop where
  met : AnchorsMet crypto coinsView s.mtx.vJoinSplit
  known : ∀ anchor tree, s.treestate.intermediates.lookup anchor = some tree
    → Accepts crypto coinsView s.mtx.vJoinSplit anchor tree
  notes : ∀ input ∈ s.jsInputsDeque,
    ∃ tree, coinsView.getAnchorAt (input.root crypto) = some tree

/-- Notes that follow no change are taken as they are. -/
theorem consumeNotes_same {previousCommitments jsAnchor deque notes rest}
    (run : consumeNotes env false previousCommitments jsAnchor deque = .ok (notes, rest))
    : notes = deque.take 2 := by
  obtain ⟨taken, consumed, result⟩ := bind_ok.mp run
  obtain ⟨rfl, -⟩ := Prod.mk.inj (pure_ok.mp result)
  have each := Codec.forall₂_of_mapM consumed
  change Forall₂ _ (deque.take 2) taken at each
  clear run result consumed
  generalize deque.take 2 = inputs at each
  induction each with
  | nil => rfl
  | cons first _ ih =>
    cases first
    rw [ih]

theorem Makes.anchor (makes : Makes env setup s round made outputMap) {first rest}
    (isSpent : round.spent = first :: rest)
    : made.jsdesc.anchor = first.root env.crypto := by
  obtain ⟨-, isAnchor, -⟩ := createJSDescription_returned makes.created
  rw [isAnchor, JoinSplitMade.vjsin, makes.spent, isSpent]
  cases rest <;> rfl

section

variable (anchored : Anchored env.crypto coinsView s) (worth : Worth env setup s)
  (trees : ViewOfTrees env.crypto coinsView) (view : setup.coinsView = some coinsView)
  (makes : Makes env setup s round made outputMap) (spends : round.spent ≠ [])
include anchored worth trees view makes spends

/-- The anchor of a joinsplit that spends a note or change is accepted. -/
theorem Anchored.accepts
    : (∃ tree, Accepts env.crypto coinsView s.mtx.vJoinSplit made.jsdesc.anchor tree)
      ∧ ∀ anchor tree, round.treestate.intermediates.lookup anchor = some tree
        → Accepts env.crypto coinsView s.mtx.vJoinSplit anchor tree := by
  obtain ⟨jsAnchor, consumed, taken⟩ := makes.chose.found
  rcases consumeChange_returned consumed with ⟨notPositive, noChange, isTreestate⟩
    | ⟨pos, _, treeNext, witness, plaintext, isView, updated, -, isChange, -⟩
  · rw [decide_eq_false notPositive] at taken
    have isSpent : round.spent = round.notes := by
      rw [Round.spent, noChange]
      rfl
    rw [isSpent] at spends
    obtain ⟨first, rest, isNotes⟩ := exists_cons_of_ne_nil spends
    have mem : first ∈ s.jsInputsDeque := by
      refine mem_of_mem_take (i := 2) ?_
      rw [← consumeNotes_same taken, isNotes]
      exact mem_cons_self
    obtain ⟨tree, found⟩ := anchored.notes first mem
    rw [makes.anchor (isSpent.trans isNotes), isTreestate]
    refine ⟨⟨tree, .ofView found⟩, ?_⟩
    unfold Chaining.resetTreestate
    split
    · intro anchor tree lookup
      cases lookup
    · exact anchored.known
  · obtain ⟨created, -⟩ := worth.pending (gt_zero_iff.mp pos)
    cases view.symm.trans isView
    have unchanged : s.resetTreestate = s.treestate := by
      unfold Chaining.resetTreestate
      rw [if_neg]
      rintro ⟨zero, -⟩
      rw [zero] at pos
      exact absurd pos (by decide)
    rw [unchanged] at updated
    have known : ∀ anchor tree, s.treestate.find coinsView anchor = some tree
        → Accepts env.crypto coinsView s.mtx.vJoinSplit anchor tree := by
      intro anchor tree found
      rcases Option.or_eq_some_iff.mp found with inside | ⟨-, outside⟩
      · exact anchored.known _ _ inside
      · exact .ofView outside
    obtain ⟨tree, leaves, found, appended, isNext, -, root⟩ := Treestate.update_returned
      (fun tree found => (known _ tree found).treeOf trees) updated
    have mem : s.prevJoinSplit ∈ s.mtx.vJoinSplit := by
      unfold Chaining.prevJoinSplit
      rw [getLastD_eq_getLast?, getLast?_eq_some_getLast created]
      exact getLast_mem created
    have accepted : Accepts env.crypto coinsView s.mtx.vJoinSplit
        (treeNext.root env.crypto.hash sproutTreeDepth) treeNext :=
      .ofJoinSplit mem (known _ _ found) appended
    have isSpent : round.spent = ⟨witness, plaintext.note (env.crypto.address setup.changeKey),
        setup.changeKey⟩ :: round.notes := by
      rw [Round.spent, isChange]
      rfl
    have isRoot : made.jsdesc.anchor = treeNext.root env.crypto.hash sproutTreeDepth :=
      (makes.anchor isSpent).trans root
    rw [isRoot, isNext]
    refine ⟨⟨treeNext, accepted⟩, ?_⟩
    intro anchor tree lookup
    simp only [Treestate.extend] at lookup
    split at lookup
    · exact anchored.known _ _ lookup
    · rcases FiniteMap.lookup_insert_cases lookup with ⟨rfl, rfl⟩ | ⟨-, before⟩
      · exact accepted
      · exact anchored.known _ _ before

theorem Anchored.next
    : Anchored env.crypto coinsView (s.next round made outputMap) := by
  obtain ⟨⟨tree, accepts⟩, known⟩ := anchored.accepts worth trees view makes spends
  refine ⟨anchored.met.append accepts, ?_, ?_⟩
  · intro anchor tree lookup
    exact (known anchor tree lookup).mono (subset_append_left _ _)
  · intro input mem
    change input ∈ round.jsInputsDeque at mem
    rw [makes.chose.notes.2] at mem
    exact anchored.notes input (mem_of_mem_drop mem)

end

end Resistance.Builder

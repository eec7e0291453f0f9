import Resistance.Builder.Accepted
import Resistance.Builder.Fee

/-! When the anchors of a built transaction are accepted. A joinsplit is anchored to the root of its
first input. Without a note or change that is a dummy, the only leaf of a tree of its own, which no
node knows.
-/

namespace Resistance.Builder

open List Primitives Consensus Zcash Validation Coins Sprout Lib Lib.Checks TransactionBuilder

variable {env : BuilderEnv} {setup : ChainSetup} {s start : Chaining} {round : Round}
  {made : JoinSplitMade} {outputMap : Fin 2 × Fin 2} {coinsView : ShieldedState}
  {builder : TransactionBuilder}

/-- The root of the tree of the first dummy input that is drawn for a joinsplit. -/
def dummyRoot (env : BuilderEnv) (n : Nat) : Uint256 :=
  (JSInput.dummy env.crypto (env.random n).dummyInputs.1).root env.crypto

/-- The trees of dummy inputs are not those of the chain or of the transaction. -/
def DummiesUnknown (env : BuilderEnv) (coinsView : ShieldedState)
    (vJoinSplit : List JSDescription) : Prop :=
  ∀ n tree, ¬ Accepts env.crypto coinsView vJoinSplit (dummyRoot env n) tree

theorem DummiesUnknown.not_met {vJoinSplit joinsplit n}
    (unknown : DummiesUnknown env coinsView vJoinSplit) (mem : joinsplit ∈ vJoinSplit)
    (isDummy : joinsplit.anchor = dummyRoot env n)
    : ¬ AnchorsMet env.crypto coinsView vJoinSplit := by
  intro met
  obtain ⟨tree, accepts⟩ := met.accepts mem
  rw [isDummy] at accepts
  exact unknown n tree accepts

/-- A payment without value that is last after a round was last before it. -/
theorem Chose.getLast? (chose : Chose env setup s round)
    (settled : Settled round.last (inputValue round.spent) round.recipient.value.toInt64
      setup.vpubNewTarget round.settlement) {output}
    (isLast : round.jsOutputsDeque.getLast? = some output) (zero : output.value = 0)
    : s.jsOutputsDeque.getLast? = some output := by
  rw [chose.outputs] at isLast
  have inTail : s.jsOutputsDeque.tail.getLast? = some output := by
    cases isTail : s.jsOutputsDeque.tail with
    | cons next rest =>
      rw [isTail] at isLast
      rw [← isLast, getLast?_append_of_ne_nil _ (cons_ne_nil next rest)]
    | nil =>
      rw [isTail, append_nil] at isLast
      have pos := (owed_due settled round.recipient).2 output (mem_of_getLast? isLast)
      rw [zero] at pos
      cases pos
  rw [getLast?_tail] at inTail
  split at inTail
  · cases inTail
  · exact inTail

/-- If the last payment has a value, or something goes to the public pool, then no round is without
a note or change.
-/
def KeepsFed (setup : ChainSetup) (s : Chaining) : Prop :=
  ∀ output, s.jsOutputsDeque.getLast? = some output → output.value = 0
    → 0 < setup.vpubNewTarget.toInt

theorem KeepsFed.spends (fed : KeepsFed setup s) (worth : Worth env setup s)
    (going : s.vpubNewProcessed = false) (target : 0 ≤ setup.vpubNewTarget.toInt)
    (makes : Makes env setup s round made outputMap)
    : round.spent ≠ [] := by
  intro nothing
  obtain ⟨some, noValue, noTarget⟩ := makes.chose.starved (worth.change makes.chose)
    (worth.worth going) (worth.going going) target nothing
  have isLast := getLast?_eq_some_getLast some
  have below : (s.jsOutputsDeque.getLast some).value.toNat ≤ outputSum s.jsOutputsDeque :=
    le_sum_of_mem (mem_map_of_mem (getLast_mem some))
  have zero : (s.jsOutputsDeque.getLast some).value = 0 := by
    rw [← UInt64.toNat_inj, UInt64.toNat_zero]
    omega
  have pos := fed _ isLast zero
  omega

theorem Reached.anchored (correct : env.crypto.Correct) (trees : ViewOfTrees env.crypto coinsView)
    (view : setup.coinsView = some coinsView) (target : 0 ≤ setup.vpubNewTarget.toInt)
    (reached : Reached env setup start s) (worth : Worth env setup start)
    (fed : KeepsFed setup start) (anchored : Anchored env.crypto coinsView start)
    : Anchored env.crypto coinsView s := by
  have both : KeepsFed setup s ∧ Anchored env.crypto coinsView s := by
    induction reached with
    | start => exact ⟨fed, anchored⟩
    | @round s next before going run ih =>
      obtain ⟨round, made, outputMap, makes, rfl⟩ := chainRound_makes run
      obtain ⟨fedBefore, anchoredBefore⟩ := ih
      have worthBefore := before.worth correct worth
      obtain ⟨-, settled, -⟩ := makes.settled
      refine ⟨?_, anchoredBefore.next worthBefore trees view makes
        (fedBefore.spends worthBefore going target makes)⟩
      intro output isLast zero
      exact fedBefore output (makes.chose.getLast? settled isLast zero) zero
  exact both.2

/-- What the log says of joinsplits without a note or change. -/
theorem Reached.log (reached : Reached env setup start s) (new : start.log = [])
    : ∀ made ∈ s.log, made.jsdesc ∈ s.mtx.vJoinSplit
      ∧ (made.spent = [] → ∃ n, made.jsdesc.anchor = dummyRoot env n) := by
  induction reached with
  | start => simp [new]
  | @round s next _ _ run ih =>
    obtain ⟨round, made, outputMap, makes, rfl⟩ := chainRound_makes run
    refine forall_mem_append.mpr ⟨?_, forall_mem_singleton.mpr ⟨?_, ?_⟩⟩
    · intro other mem
      obtain ⟨listed, isDummy⟩ := ih other mem
      exact ⟨mem_append_left _ listed, isDummy⟩
    · exact mem_append_right _ mem_cons_self
    intro nothing
    obtain ⟨-, isAnchor, -⟩ := createJSDescription_returned makes.created
    refine ⟨s.mtx.vJoinSplit.length, ?_⟩
    rw [isAnchor, JoinSplitMade.vjsin, nothing, makes.dummies]
    rfl

theorem Reached.jsInputsDeque (reached : Reached env setup start s)
    : s.jsInputsDeque ⊆ start.jsInputsDeque := by
  induction reached with
  | start => exact List.Subset.refl _
  | round _ _ run ih =>
    obtain ⟨round, made, outputMap, makes, rfl⟩ := chainRound_makes run
    change round.jsInputsDeque ⊆ _
    rw [makes.chose.notes.2]
    exact List.Subset.trans (drop_subset _ _) ih

/-- If the notes are worth the payments and the last payment has no value, then the joinsplit for it
has neither a note nor change.
-/
theorem Reached.starved (correct : env.crypto.Correct) (reached : Reached env setup start s)
    (worth : Worth env setup start) (target : setup.vpubNewTarget.toInt = 0)
    (notes : ∀ input ∈ start.jsInputsDeque, 0 < input.note.value.toNat)
    (last : ∃ output, start.jsOutputsDeque.getLast? = some output ∧ output.value = 0)
    : (∃ output, s.jsOutputsDeque.getLast? = some output ∧ output.value = 0)
      ∨ ∃ made ∈ s.log, made.spent = [] := by
  induction reached with
  | start => exact .inl last
  | @round s next before going run ih =>
    obtain ⟨round, made, outputMap, makes, rfl⟩ := chainRound_makes run
    rcases ih with ⟨output, isLast, zero⟩ | ⟨other, mem, nothing⟩
    · cases isTail : s.jsOutputsDeque.tail with
      | cons second rest =>
        refine .inl ⟨output, ?_, zero⟩
        change round.jsOutputsDeque.getLast? = _
        have long := congrArg length isTail
        rw [length_tail, length_cons] at long
        rw [makes.chose.outputs, isTail,
          getLast?_append_of_ne_nil _ (cons_ne_nil second rest), ← isTail, getLast?_tail,
          if_neg (by omega)]
        exact isLast
      | nil =>
        refine .inr ⟨made, mem_append_right _ mem_cons_self, ?_⟩
        have worthBefore := before.worth correct worth
        have total := worthBefore.worth going
        have isDeque : s.jsOutputsDeque = [output] := by
          cases isDeque : s.jsOutputsDeque <;> simp_all
        have noValue : outputSum s.jsOutputsDeque = 0 := by
          rw [isDeque]
          simp [outputSum, zero]
        have kept := worthBefore.kept
        have noNotes : s.jsInputsDeque = [] := by
          rw [eq_nil_iff_forall_not_mem]
          intro input mem
          have pos := notes input (before.jsInputsDeque mem)
          have below : input.note.value.toNat ≤ noteSum s.jsInputsDeque := by
            exact le_sum_of_mem
              (mem_map_of_mem (mem_map_of_mem mem))
          omega
        rw [makes.spent, Round.spent, append_eq_nil_iff]
        constructor
        · obtain ⟨jsAnchor, consumed, -⟩ := makes.chose.found
          rcases consumeChange_returned consumed with ⟨-, none, -⟩ | ⟨pos, -⟩
          · rw [none]
            rfl
          · rw [gt_zero_iff] at pos
            omega
        · have taken := makes.chose.notes.1
          rw [noNotes, take_nil, map_nil, map_eq_nil_iff] at taken
          exact taken
    · exact .inr ⟨other, mem_append_left _ mem, nothing⟩

variable {mtx result : CMutableTransaction} {outputs : List JSOutput}
  {log log' : List JoinSplitMade} {tree : SproutMerkleTree}

theorem createOutputsOnly_subset (run : createOutputsOnly env mtx outputs log = .ok (result, log'))
    : mtx.vJoinSplit ⊆ result.vJoinSplit := by
  fun_induction createOutputsOnly env mtx outputs log with
  | case1 mtx log =>
    cases run
    exact List.Subset.refl _
  | case2 mtx output log vjsout =>
    obtain ⟨⟨jsdesc, outputMap⟩, _, isResult⟩ := bind_ok.mp run
    cases isResult
    exact subset_append_left _ _
  | case3 =>
    rename_i ih
    obtain ⟨⟨jsdesc, outputMap⟩, _, more⟩ := bind_ok.mp run
    exact List.Subset.trans (subset_append_left _ _) (ih _ more)

/-- Without notes, the first joinsplit is anchored to the tree of a dummy. -/
theorem createOutputsOnly_dummy (some : outputs ≠ [])
    (run : createOutputsOnly env mtx outputs log = .ok (result, log'))
    : ∃ jsdesc ∈ result.vJoinSplit, jsdesc.anchor = dummyRoot env mtx.vJoinSplit.length := by
  match outputs, some with
  | [output], _ =>
    obtain ⟨⟨jsdesc, outputMap⟩, created, isResult⟩ := bind_ok.mp run
    cases isResult
    exact ⟨jsdesc, mem_append_right _ mem_cons_self, (createJSDescription_returned created).2.1⟩
  | first :: second :: rest, _ =>
    obtain ⟨⟨jsdesc, outputMap⟩, created, more⟩ := bind_ok.mp run
    exact ⟨jsdesc, createOutputsOnly_subset more
      (mem_append_right _ mem_cons_self), (createJSDescription_returned created).2.1⟩

/-- Every joinsplit for the notes and outputs has a note or change to spend. -/
def FedBy (jsInputs : List JSInput) (jsOutputs : List JSOutput) : Prop :=
  (jsInputs = [] → jsOutputs = [])
  ∧ (jsInputs ≠ [] → ∀ output, jsOutputs.getLast? = some output → output.value = 0
    → outputSum jsOutputs < noteSum jsInputs)

theorem createJSDescriptions_anchors {fuel}
    (run : builder.createJSDescriptions env fuel = .ok (mtx, log)) (correct : env.crypto.Correct)
    (trees : ViewOfTrees env.crypto coinsView) (view : builder.coinsView = some coinsView)
    (new : builder.mtx.vJoinSplit = []) (rooted : ∀ input ∈ builder.jsInputs,
      ∃ tree, coinsView.getAnchorAt (input.root env.crypto) = some tree)
    (range : -2 ^ 63 ≤ (noteSum builder.jsInputs : Int) - outputSum builder.jsOutputs
      ∧ (noteSum builder.jsInputs : Int) - outputSum builder.jsOutputs < 2 ^ 63)
    (unknown : DummiesUnknown env coinsView mtx.vJoinSplit)
    : (FedBy builder.jsInputs builder.jsOutputs
        → AnchorsMet env.crypto coinsView mtx.vJoinSplit)
      ∧ ((∀ input ∈ builder.jsInputs, 0 < input.note.value.toNat)
        → AnchorsMet env.crypto coinsView mtx.vJoinSplit
        → FedBy builder.jsInputs builder.jsOutputs) := by
  cases isInputs : builder.jsInputs with
  | nil =>
    unfold createJSDescriptions at run
    rw [isInputs] at run
    constructor
    · rintro ⟨noOutputs, -⟩
      rw [noOutputs rfl] at run
      cases run
      rw [new]
      exact .nil
    · intro _ met
      refine ⟨?_, fun other => absurd rfl other⟩
      intro _
      by_contra some
      obtain ⟨jsdesc, mem, isDummy⟩ := createOutputsOnly_dummy some run
      exact unknown.not_met mem isDummy met
  | cons first rest =>
    have nonempty : builder.jsInputs ≠ [] := by simp [isInputs]
    obtain ⟨final, reached, processed, rfl, -⟩ := createJSDescriptions_reached isInputs run
    have target := reached.target processed range
    have worth : Worth env (builder.chainSetup first) builder.chainStart :=
      worth_start nonempty target
    have targetNonneg : 0 ≤ (builder.chainSetup first).vpubNewTarget.toInt := by
      simp only [chainSetup]
      split
      · next pos => exact (gt_zero_iff.mp pos).le
      · exact le_refl _
    rw [← isInputs]
    constructor
    · rintro ⟨-, fed⟩
      have start : Anchored env.crypto coinsView builder.chainStart := by
        refine ⟨?_, ?_, rooted⟩
        · change AnchorsMet env.crypto coinsView builder.mtx.vJoinSplit
          rw [new]
          exact .nil
        · intro anchor tree lookup
          cases lookup
      refine (reached.anchored correct trees view targetNonneg worth ?_ start).met
      intro output isLast zero
      have less := fed nonempty output isLast zero
      omega
    · intro pos met
      refine ⟨fun empty => absurd empty nonempty, ?_⟩
      intro _ output isLast zero
      by_contra notLess
      have noTarget : (builder.chainSetup first).vpubNewTarget.toInt = 0 := by omega
      have finish := (reached.worth correct worth).done processed
      have noOutputs : final.jsOutputsDeque = [] :=
        length_eq_zero_iff.mp (Nat.add_eq_zero_iff.mp finish).2
      rcases reached.starved correct worth noTarget pos ⟨output, isLast, zero⟩ with
        ⟨other, isOther, -⟩ | ⟨made, mem, nothing⟩
      · rw [noOutputs] at isOther
        cases isOther
      · obtain ⟨listed, isDummy⟩ := reached.log rfl made mem
        obtain ⟨n, isDummy⟩ := isDummy nothing
        exact unknown.not_met listed isDummy met

section

variable {next : TransactionBuilder} (range : InRange builder)
  (run : builder.settleChange env = .ok next)
include range run

/-- Sprout change becomes the last Sprout output. -/
theorem settleChange_jsOutputs
    : (SproutChange builder ∧ ∃ output, next.jsOutputs = builder.jsOutputs ++ [output]
        ∧ output.value ≠ 0)
      ∨ (¬ SproutChange builder ∧ next.jsOutputs = builder.jsOutputs) := by
  obtain ⟨_, _, more⟩ := bind_ok.mp run
  have exact := range.change
  split at more
  next pos =>
    rw [gt_zero_iff, exact] at pos
    have valued : builder.change.toUInt64 ≠ 0 := by
      intro zero
      have value := toNat_toUInt64 (a := builder.change) (by omega)
      rw [zero, UInt64.toNat_zero] at value
      omega
    rcases addChange_cases pos more with
      ⟨change, addr, added⟩ | ⟨noChange, ⟨ovk, addr, added⟩ | ⟨addr, added⟩⟩
    all_goals obtain ⟨_, _, ⟨⟩⟩ := bind_ok.mp added
    · exact .inl ⟨change, _, rfl, valued⟩
    · exact .inr ⟨noChange, rfl⟩
    · exact .inr ⟨noChange, rfl⟩
  next notPositive =>
    rw [gt_zero_iff, exact] at notPositive
    cases more
    exact .inr ⟨fun change => notPositive change.1, rfl⟩

/-- Every joinsplit that `Build` makes has a note or change to spend: without notes there is no
Sprout output, and otherwise the last Sprout output has a value, unless the notes are worth more
than the outputs.
-/
def Fed (builder : TransactionBuilder) : Prop :=
  (builder.jsInputs = [] → builder.jsOutputs = [] ∧ ¬ SproutChange builder)
  ∧ (builder.jsInputs ≠ [] → SproutChange builder
    ∨ ∀ output, builder.jsOutputs.getLast? = some output → output.value = 0
      → outputSum builder.jsOutputs < noteSum builder.jsInputs)

theorem fedBy_iff
    : FedBy builder.jsInputs next.jsOutputs ↔ Fed builder := by
  unfold FedBy Fed
  rcases settleChange_jsOutputs range run with ⟨change, output, isOutputs, valued⟩
    | ⟨noChange, isOutputs⟩
  · rw [isOutputs]
    simp [change, valued]
  · rw [isOutputs]
    simp [noChange]

end

/-- For notes with witnesses rooted at anchors of the view, the joinsplits of a transaction that
`Build` returns meet the anchor condition if every one of them has a note or change to spend; and if
all notes have a value, only then.
-/
theorem build_anchorsMet {fuel : Nat} {tx : CTransaction} (correct : env.crypto.Correct)
    (trees : ViewOfTrees env.crypto coinsView) (view : builder.coinsView = some coinsView)
    (unbuilt : Unbuilt builder) (range : InRange builder) (rooted : ∀ input ∈ builder.jsInputs,
      ∃ tree, coinsView.getAnchorAt (input.root env.crypto) = some tree)
    (built : builder.build env fuel = .ok tx) (unknown : DummiesUnknown env coinsView tx.vJoinSplit)
    : (Fed builder → AnchorsMet env.crypto coinsView tx.vJoinSplit)
      ∧ ((∀ input ∈ builder.jsInputs, 0 < input.note.value.toNat)
        → AnchorsMet env.crypto coinsView tx.vJoinSplit → Fed builder) := by
  obtain ⟨next, settling, more⟩ := bind_ok.mp built
  obtain ⟨mtx, describing, signing⟩ := bind_ok.mp more
  have settled := settleChange_settled range settling
  have fed := fedBy_iff range settling
  rw [(signAll_signed signing).vJoinSplit] at unknown ⊢
  obtain ⟨vShieldedSpend, _, more⟩ := bind_ok.mp describing
  obtain ⟨vShieldedOutput, _, joinsplits⟩ := bind_ok.mp more
  have new : next.mtx.vJoinSplit = [] := settled.vJoinSplit.trans unbuilt.joinsplits
  rw [← fed, ← settled.jsInputs]
  unfold describeJoinSplits at joinsplits
  split at joinsplits
  · split at joinsplits
    next described =>
      cases joinsplits
      have notes := range.notes
      have outputs := settled.jsOutputs
      rw [maxMoney_toInt] at notes outputs
      rw [← settled.jsInputs] at notes rooted
      have small : -2 ^ 63 ≤ (noteSum next.jsInputs : Int) - outputSum next.jsOutputs
          ∧ (noteSum next.jsInputs : Int) - outputSum next.jsOutputs < 2 ^ 63 :=
        ⟨by omega, by omega⟩
      have anchors := createJSDescriptions_anchors described correct trees
        (settled.coinsView.trans view) new rooted small unknown
      exact anchors
    · cases joinsplits
    · cases joinsplits
  next nothing =>
    cases joinsplits
    obtain ⟨noInputs, noOutputs⟩ := not_or.mp nothing
    change ¬ next.jsInputs ≠ [] at noInputs
    change ¬ next.jsOutputs ≠ [] at noOutputs
    rw [not_not.mp noInputs, not_not.mp noOutputs]
    change (_ → AnchorsMet _ _ next.mtx.vJoinSplit) ∧ (_ → AnchorsMet _ _ next.mtx.vJoinSplit → _)
    rw [new]
    exact ⟨fun _ => .nil, fun _ _ => ⟨fun _ => rfl, fun other => absurd rfl other⟩⟩

/-- An environment that draws the same for every joinsplit. -/
def stillEnv : BuilderEnv := { sampleEnv with random := fun _ => sampleRandom 0 }

theorem sampleView_getAnchorAt {found anchor}
    (isFound : (sampleView tree).getAnchorAt anchor = some found)
    : anchor = tree.root plainCrypto.hash sproutTreeDepth ∧ found = tree := by
  have single : dlookup anchor
      [(⟨tree.root plainCrypto.hash sproutTreeDepth, tree⟩ : Sigma fun _ => SproutMerkleTree)]
      = some found := isFound
  by_cases same : anchor = tree.root plainCrypto.hash sproutTreeDepth
  · rw [same, dlookup_cons_eq] at single
    cases single
    exact ⟨same, rfl⟩
  · rw [dlookup_cons_ne _ _ same] at single
    cases single

/-- The root after the commitments of a joinsplit. -/
def rootAfter (tree : SproutMerkleTree) (jsdesc : JSDescription) : Option Uint256 :=
  (tree.appendAll plainCrypto.hash sproutTreeDepth jsdesc.commitments.toList).toOption.map
    fun next => next.root plainCrypto.hash sproutTreeDepth

/-- With one joinsplit, the root after it is the only one that is not in the view. -/
theorem accepts_single {jsdesc} (fresh : rootAfter tree jsdesc ≠ some jsdesc.anchor) {anchor found}
    (accepts : Accepts plainCrypto (sampleView tree) [jsdesc] anchor found)
    : found = tree ∧ anchor = tree.root plainCrypto.hash sproutTreeDepth
      ∨ rootAfter tree jsdesc = some anchor := by
  induction accepts with
  | ofView isFound => exact .inl (sampleView_getAnchorAt isFound).symm
  | @ofJoinSplit joinsplit before next mem _ appended ih =>
    obtain rfl := mem_singleton.mp mem
    rcases ih with ⟨rfl, -⟩ | again
    · refine .inr ?_
      rw [rootAfter, appended]
      rfl
    · exact absurd again fresh

/-- The note of 10 pays 4 in one joinsplit, which is anchored to the root of its tree. -/
theorem build_anchorsMet_sample
    : ∃ tx, sampleCalled.build stillEnv 2 = .ok tx ∧ tx.vJoinSplit.length = 1
      ∧ AnchorsMet plainCrypto (sampleView (sampleTree 10)) tx.vJoinSplit := by
  have roots : (sampleCalled.build stillEnv 2).toOption.map
      (fun tx => tx.vJoinSplit.map fun jsdesc =>
        (decide (rootAfter (sampleTree 10) jsdesc = some jsdesc.anchor),
          decide (rootAfter (sampleTree 10) jsdesc = some (dummyRoot stillEnv 0))))
      = some [(false, false)] := by decide +kernel
  obtain ⟨tx, isBuilt, facts⟩ := Option.map_eq_some_iff.mp roots
  have built := eq_ok_of_toOption isBuilt
  obtain ⟨jsdesc, isList, facts⟩ := map_eq_singleton_iff.mp facts
  obtain ⟨fresh, unknownRoot⟩ := Prod.mk.inj facts
  have elsewhere : dummyRoot stillEnv 0
      ≠ (sampleTree 10).root plainCrypto.hash sproutTreeDepth := by decide +kernel
  have unknown : DummiesUnknown stillEnv (sampleView (sampleTree 10)) tx.vJoinSplit := by
    intro n tree accepts
    rw [isList] at accepts
    rcases accepts_single (of_decide_eq_false fresh) accepts with ⟨-, isRoot⟩ | after
    · exact elsewhere isRoot
    · exact of_decide_eq_false unknownRoot after
  have trees : ViewOfTrees plainCrypto (sampleView (sampleTree 10)) := by
    intro anchor tree found
    obtain ⟨-, rfl⟩ := sampleView_getAnchorAt found
    exact ⟨[plainCrypto.cm (sampleNote 10)], rfl⟩
  have fed : Fed sampleCalled := by
    refine ⟨nofun, fun _ => .inr ?_⟩
    rintro output ⟨⟩ zero
    exact absurd zero (by decide)
  have correct : stillEnv.crypto.Correct := plainCrypto_correct
  refine ⟨tx, built, by rw [isList]; rfl, (build_anchorsMet correct trees rfl ⟨rfl, rfl⟩
    sampleCalled_inRange ?_ built unknown).1 fed⟩
  exact forall_mem_singleton.mpr ⟨sampleTree 10, by decide +kernel⟩

/-- Transparent value is sent to a Sprout address. -/
def shieldingBuilder : TransactionBuilder :=
  { sampleCalled with jsInputs := [], jsOutputs := [sampleOutput 5] }

/-- The note of 10 is sent on, and a payment without value follows. -/
def emptyPaymentBuilder : TransactionBuilder :=
  { sampleCalled with jsOutputs := [sampleOutput 10, sampleOutput 0] }

/-- The joinsplit loop of `HaveShieldedRequirements` with the sample view. -/
def sampleRequirements (tx : CTransaction) : Except Failure Bool :=
  (sampleView (sampleTree 10)).haveJoinSplits plainCrypto.hash sproutTreeDepth ∅ tx.vJoinSplit

/-- Without notes, and when nothing of the notes is left for a last payment without value, `Build`
returns a transaction with a joinsplit whose anchor no node knows.
-/
theorem dummy_anchored
    : (∃ tx, shieldingBuilder.build sampleEnv 2 = .ok tx ∧ sampleRequirements tx = .ok false
        ∧ ¬ AnchorsMet plainCrypto (sampleView (sampleTree 10)) tx.vJoinSplit)
      ∧ ∃ tx, emptyPaymentBuilder.build sampleEnv 2 = .ok tx ∧ sampleRequirements tx = .ok false
        ∧ ¬ AnchorsMet plainCrypto (sampleView (sampleTree 10)) tx.vJoinSplit := by
  have known : (sampleTree 10).root plainCrypto.hash sproutTreeDepth ≠ dummyRoot sampleEnv 0
      ∧ (sampleTree 10).root plainCrypto.hash sproutTreeDepth ≠ dummyRoot sampleEnv 1 := by
    decide +kernel
  constructor
  · have run : (shieldingBuilder.build sampleEnv 2).toOption.map (fun tx =>
          ((sampleRequirements tx).toOption, tx.vJoinSplit.map JSDescription.anchor))
        = some (some false, [dummyRoot sampleEnv 0]) := by decide +kernel
    obtain ⟨tx, built, facts⟩ := Option.map_eq_some_iff.mp run
    obtain ⟨refused, anchors⟩ := Prod.mk.inj facts
    obtain ⟨jsdesc, isList, isDummy⟩ := map_eq_singleton_iff.mp anchors
    refine ⟨tx, eq_ok_of_toOption built, eq_ok_of_toOption refused, ?_⟩
    intro met
    obtain ⟨tree, accepts⟩ := met [] jsdesc [] isList
    rw [isDummy] at accepts
    generalize isAnchor : dummyRoot sampleEnv 0 = anchor at accepts
    cases accepts with
    | ofView found => exact known.1 (isAnchor.trans (sampleView_getAnchorAt found).1).symm
    | ofJoinSplit mem _ _ => cases mem
  · have run : (emptyPaymentBuilder.build sampleEnv 2).toOption.map (fun tx =>
          ((sampleRequirements tx).toOption, tx.vJoinSplit.map fun jsdesc =>
            (decide (rootAfter (sampleTree 10) jsdesc = some jsdesc.anchor),
              decide (rootAfter (sampleTree 10) jsdesc = some (dummyRoot sampleEnv 1)),
              decide (jsdesc.anchor = dummyRoot sampleEnv 1))))
        = some (some false, [(false, false, false), (false, false, true)]) := by decide +kernel
    obtain ⟨tx, built, facts⟩ := Option.map_eq_some_iff.mp run
    obtain ⟨refused, facts⟩ := Prod.mk.inj facts
    obtain ⟨first, rest, isList, firstFacts, restFacts⟩ := map_eq_cons_iff.mp facts
    obtain ⟨second, isRest, secondFacts⟩ := map_eq_singleton_iff.mp restFacts
    obtain ⟨fresh, other⟩ := Prod.mk.inj firstFacts
    obtain ⟨-, last⟩ := Prod.mk.inj secondFacts
    have isDummy := of_decide_eq_true (Prod.mk.inj last).2
    refine ⟨tx, eq_ok_of_toOption built, eq_ok_of_toOption refused, ?_⟩
    intro met
    obtain ⟨tree, accepts⟩ := met [first] second [] (by rw [isList, isRest]; rfl)
    rw [isDummy] at accepts
    rcases accepts_single (of_decide_eq_false fresh) accepts with ⟨-, isRoot⟩ | after
    · exact known.2 isRoot.symm
    · exact of_decide_eq_false (Prod.mk.inj other).1 after

end Resistance.Builder

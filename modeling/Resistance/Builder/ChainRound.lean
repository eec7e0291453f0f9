import Resistance.Builder.Returned

/-! One round of the chaining loop. While the notes are worth what is still to be paid, a round
finds its inputs and makes a balanced joinsplit, and the rest is again worth what is still to be
paid.
-/

namespace Resistance.Builder

open List Primitives Consensus Zcash Validation Coins Sprout Lib Lib.Checks Chaining Int64

variable {env : BuilderEnv} {setup : ChainSetup} {coinsView : ShieldedState}
  {base : List Uint256} {s : Chaining}

/-- The loop is on its way: what is left of the notes, with the change, is worth what is left to
pay, and can be spent.
-/
structure Sound (env : BuilderEnv) (coinsView : ShieldedState) (base : List Uint256)
    (setup : ChainSetup) (s : Chaining) : Prop where
  version : s.mtx.fOverwintered = true ∧ s.mtx.nVersion ≥ saplingTxVersion
  initial : s.mtx.vJoinSplit = [] → s.treestate = {}
  notes : ∀ input ∈ s.jsInputsDeque,
    NoteAmong env.crypto base input ∧ 0 < input.note.value.toNat
  outputs : ∀ output ∈ s.jsOutputsDeque, 0 < output.value.toNat
  kept : 0 ≤ s.jsChange.toInt
  range : s.jsChange.toInt + noteSum s.jsInputsDeque ≤ maxMoney.toInt
  worth : s.vpubNewProcessed = false → s.jsChange.toInt + noteSum s.jsInputsDeque
    = outputSum s.jsOutputsDeque + setup.vpubNewTarget.toInt
  going : s.vpubNewProcessed = false → 0 < s.rank
  done : s.vpubNewProcessed = true → s.rank = 0 ∧ s.jsChange = 0
  room : base.length + s.treestate.previousCommitments.length + 2 * s.rank
    ≤ 2 ^ sproutTreeDepth
  pending : 0 < s.jsChange.toInt
    → ChangePending env.crypto coinsView base setup.changeKey s.mtx.joinSplitPubKey s.treestate
      s.prevJoinSplit s.changeOutputIndex s.jsChange

/-- What stays the same in the loop. -/
structure SetupOf (env : BuilderEnv) (coinsView : ShieldedState) (base : List Uint256)
    (setup : ChainSetup) : Prop where
  view : setup.coinsView = some coinsView
  anchored : ∃ tree, TreeOf env.crypto base tree
    ∧ coinsView.getAnchorAt (tree.root env.crypto.hash sproutTreeDepth) = some tree
  vpubOld : setup.vpubOldTarget = 0
  vpubNew : 0 ≤ setup.vpubNewTarget.toInt

/-- Where the first input of a round comes from. -/
inductive ChangeFrom (env : BuilderEnv) (s : Chaining) (treestate : Treestate)
    : Option JSInput → Prop
  | nothing (zero : s.jsChange = 0) (reset : treestate.previousCommitments = [])
      : ChangeFrom env s treestate none
  | previous {input : JSInput} (pos : 0 < s.jsChange.toInt)
      (value : (input.note.value.toNat : Int) = s.jsChange.toInt)
      (committed : env.crypto.cm input.note ∈ s.prevJoinSplit.commitments.toList)
      (grown : treestate.previousCommitments
        = s.treestate.previousCommitments ++ s.prevJoinSplit.commitments.toList)
      : ChangeFrom env s treestate (some input)

/-- The inputs and payments that a round has chosen. -/
structure Planned (env : BuilderEnv) (coinsView : ShieldedState) (base : List Uint256)
    (setup : ChainSetup) (s : Chaining) (round : Round) : Prop where
  chose : Chose env setup s round
  inTree : ∃ tree, InTree env.crypto coinsView base round.treestate tree round.spent
  change : ChangeFrom env s round.treestate round.change
  settled : Settled round.last (inputValue round.spent) round.recipient.value.toInt64
    setup.vpubNewTarget round.settlement

theorem ChangeFrom.noteSum_eq {change treestate} (isFrom : ChangeFrom env s treestate change)
    : (noteSum change.toList : Int) = s.jsChange.toInt := by
  cases isFrom with
  | nothing zero _ =>
    rw [zero]
    rfl
  | previous _ value _ _ =>
    rw [← value]
    simp [noteSum]

section

variable (sound : Sound env coinsView base setup s)
  (known : SetupOf env coinsView base setup) (going : s.vpubNewProcessed = false)
  (fresh : 0 < s.jsChange.toInt
    → FreshRoot env.crypto coinsView s.treestate .jsDescException s.prevJoinSplit
      s.changeOutputIndex)
include sound known going fresh

/-- The inputs of a round are found. -/
theorem Sound.inputs
    : ∃ change jsAnchor treestate taken tree,
        consumeChange env setup s s.resetTreestate = .ok (change, jsAnchor, treestate)
        ∧ consumeNotes env (s.jsChange > 0) treestate.previousCommitments jsAnchor
          s.jsInputsDeque = .ok (taken, s.jsInputsDeque.drop s.slots)
        ∧ taken.map JSInput.note = (s.jsInputsDeque.take s.slots).map JSInput.note
        ∧ InTree env.crypto coinsView base treestate tree (change.toList ++ taken)
        ∧ ChangeFrom env s treestate change := by
  have notes : ∀ input ∈ s.jsInputsDeque, NoteAmong env.crypto base input :=
    fun input mem => (sound.notes input mem).1
  have rank := sound.going going
  have room := sound.room
  rcases Int.lt_or_eq_of_le sound.kept with pos | zero
  · obtain ⟨input, tree, treestate, consumed, inTree, grown, value, committed⟩ :=
      consumeChange_ok known.view pos (sound.pending pos) (fresh pos) (by omega)
    have isPositive : decide (s.jsChange > 0) = true := by
      simpa [gt_zero_iff] using pos
    have notReset : ¬ (s.jsChange = 0 ∧ s.mtx.vJoinSplit ≠ []) := by
      rintro ⟨isZero, -⟩
      rw [isZero] at pos
      exact absurd pos (by decide)
    rw [resetTreestate, if_neg notReset, slots, isPositive]
    obtain ⟨taken, run, kept, allIn⟩ := consumeNotes_ok true _ inTree notes (fun _ => rfl)
      (by simp)
    exact ⟨some input, _, treestate, taken, tree, consumed, run, kept, allIn,
      .previous pos value committed grown⟩
  · have isZero : s.jsChange = 0 := by
      rw [← toInt_inj, ← zero, toInt_zero]
    have notPositive : decide (s.jsChange > 0) = false := by
      rw [isZero]
      decide
    have reset : s.resetTreestate = {} := by
      unfold resetTreestate
      split
      · rfl
      next other =>
        exact sound.initial (not_not.mp fun created => other ⟨isZero, created⟩)
    obtain ⟨tree, treeOf, found⟩ := known.anchored
    have inTree : InTree env.crypto coinsView base {} tree [] := by
      refine ⟨?_, ?_, ?_, by simp⟩
      · rw [append_nil]
        omega
      · rwa [append_nil]
      · simpa [Treestate.find] using found
    rw [reset, slots, notPositive]
    obtain ⟨taken, run, kept, allIn⟩ := consumeNotes_ok false .null inTree notes (by simp)
      (fun _ => rfl)
    refine ⟨none, .null, {}, taken, tree, ?_, run, kept, allIn, .nothing isZero rfl⟩
    rw [consumeChange, if_neg (by rw [isZero]; decide)]
    rfl

/-- A round chooses its inputs and payments. -/
theorem Sound.plan
    : ∃ round, planRound env setup s = .ok round
      ∧ Planned env coinsView base setup s round := by
  obtain ⟨change, jsAnchor, treestate, taken, tree, consumed, notes, kept, inTree, isFrom⟩ :=
    sound.inputs known going fresh
  have sums := noteSum_round isFrom.noteSum_eq kept
  have range := sound.range
  have worth := sound.worth going
  have target := known.vpubNew
  have isDummy : (dummyOutputs env s.mtx).1.value = 0 := rfl
  have head := outputSum_head s.jsOutputsDeque isDummy
  change _ = (s.recipient env).value.toNat + _ at head
  generalize isRecipient : s.recipient env = recipient at head
  have input : (inputValue (change.toList ++ taken)).toInt = noteSum (change.toList ++ taken) :=
    inputValue_toInt (by omega)
  have amount : recipient.value.toInt64.toInt = recipient.value.toNat := by
    rw [maxMoney_toInt] at range
    exact MachineInt.toInt_toInt64 (by omega)
  have covered : (s.jsOutputsDeque.tail.isEmpty && (s.jsInputsDeque.drop s.slots).isEmpty) = true
      → recipient.value.toInt64.toInt + setup.vpubNewTarget.toInt
        ≤ (inputValue (change.toList ++ taken)).toInt := by
    rw [Bool.and_eq_true, List.isEmpty_iff, List.isEmpty_iff]
    rintro ⟨noOutputs, noInputs⟩
    rw [noInputs] at sums
    simp only [noteSum, map_nil, sum_nil] at *
    omega
  obtain ⟨settlement, settled, facts⟩ := settle_ok
    (.jsDescException s!"Insufficient funds for vpub_new {formatMoney setup.vpubNewTarget}")
    ⟨by omega, by omega⟩ ⟨by omega, by omega⟩ ⟨target, by omega⟩ covered
  let round : Round := {
    change, notes := taken, treestate, recipient, settlement
    jsInputsDeque := s.jsInputsDeque.drop s.slots
    jsOutputsDeque := owed recipient settlement ++ s.jsOutputsDeque.tail
    last := s.jsOutputsDeque.tail.isEmpty && (s.jsInputsDeque.drop s.slots).isEmpty
  }
  have run : planRound env setup s = .ok round := by
    simp only [planRound, consumed, notes, ok_bind, isRecipient, settled]
    rfl
  exact ⟨round, run, planRound_chose run, ⟨tree, inTree⟩, isFrom, facts⟩

end

variable {round : Round}

section

variable (planned : Planned env coinsView base setup s round)
include planned

section

variable (sound : Sound env coinsView base setup s)
include sound

theorem Planned.amounts
    : Amounts s round := by
  have worth := planned.change.noteSum_eq
  have inputs := planned.chose.noteSum_eq worth
  have range := sound.range
  exact planned.chose.amounts planned.settled worth (by omega)

section

variable (known : SetupOf env coinsView base setup)
include known

section

variable (going : s.vpubNewProcessed = false)
include going

/-- A payment is only left open when there are more notes. -/
theorem Planned.due_notes {due} (isDue : round.settlement.due = some due)
    : s.jsInputsDeque ≠ [] ∧ s.jsOutputsDeque ≠ [] := by
  obtain ⟨inputs, divided, owed, outputs, -⟩ := planned.amounts sound
  obtain ⟨notLast, pos, noChange⟩ := planned.settled.due due isDue
  have published := planned.settled.published
  rw [notLast, if_neg Bool.false_ne_true] at published
  rw [noChange, published, toInt_zero] at divided
  rw [isDue, Option.getD_some] at owed
  have worth := sound.worth going
  have target := known.vpubNew
  constructor
  · intro noNotes
    rw [planned.chose.notes.2, noNotes, drop_nil] at inputs
    rw [noNotes, noteSum_nil] at worth
    omega
  · intro noOutputs
    rw [planned.chose.recipient, recipient, noOutputs] at owed
    change _ + _ = ((0 : Nat) : Int) at owed
    omega

/-- A round leaves fewer notes and payments. -/
theorem Planned.rank_lt
    : round.jsInputsDeque.length + round.jsOutputsDeque.length < s.rank := by
  have slots := slots_range s
  have rank := sound.going going
  unfold Chaining.rank at rank ⊢
  rw [planned.chose.notes.2, planned.chose.outputs, owed, length_drop, length_append, length_map,
    length_tail]
  cases isDue : round.settlement.due with
  | none =>
    rw [Option.toList_none, length_nil]
    omega
  | some due =>
    obtain ⟨notes, outputs⟩ := planned.due_notes sound known going isDue
    have := length_pos_iff.mpr notes
    have := length_pos_iff.mpr outputs
    rw [Option.toList_some, length_singleton]
    omega

/-- A round has an input that is not a dummy. -/
theorem Planned.spent_ne_nil
    : round.spent ≠ [] := by
  intro nothing
  obtain ⟨some, noValue, -⟩ := planned.chose.starved planned.change.noteSum_eq
    (sound.worth going) (sound.going going) known.vpubNew nothing
  obtain ⟨output, mem⟩ := exists_mem_of_ne_nil _ some
  have pos := sound.outputs output mem
  have below : output.value.toNat ≤ outputSum s.jsOutputsDeque := le_sum_of_mem (mem_map_of_mem mem)
  omega

end

end

end

theorem Planned.vpubNew_nonneg (known : SetupOf env coinsView base setup)
    : 0 ≤ round.settlement.vpubNew.toInt := by
  rw [planned.settled.published]
  split
  · exact known.vpubNew
  · exact le_refl _

end

/-- The loop after a round, with the outputs in the order that was drawn for it. -/
def Chaining.after (env : BuilderEnv) (s : Chaining) (round : Round) (made : JoinSplitMade)
    : Chaining :=
  s.next round made (mappedShuffle (env.random s.mtx.vJoinSplit.length).genOutputs (0, 1))

theorem prevJoinSplit_next {made outputMap}
    : (s.next round made outputMap).prevJoinSplit = made.jsdesc := by
  simp [prevJoinSplit, Chaining.next]

/-- The joinsplit that a round has made: it is balanced, and its inputs are in the tree of its
anchor.
-/
structure Made (env : BuilderEnv) (coinsView : ShieldedState) (base : List Uint256)
    (setup : ChainSetup) (s : Chaining) (round : Round) (made : JoinSplitMade) : Prop where
  vpubOld : made.vpubOld = 0
  vpubNew : made.vpubNew = round.settlement.vpubNew.toUInt64
  change : made.change = round.change
  notes : made.notes = round.notes
  vjsout : made.vjsout
    = chainOutputs env setup (dummyOutputs env s.mtx) round.recipient round.settlement
  balanced : valueIn made.vpubOld made.vjsin = valueOut made.vpubNew made.vjsout
  inTree : ∃ tree, InTree env.crypto coinsView base round.treestate tree made.spent
    ∧ made.jsdesc.anchor = tree.root env.crypto.hash sproutTreeDepth
  holds : 0 < round.settlement.jsChange.toInt
    → HoldsNote env.crypto setup.changeKey s.mtx.joinSplitPubKey made.jsdesc
      (env.random s.mtx.vJoinSplit.length).genOutputs made.vjsout.2.value

/-- A round makes its joinsplit. -/
theorem Planned.makes (correct : env.crypto.Correct)
    (planned : Planned env coinsView base setup s round)
    (sound : Sound env coinsView base setup s) (known : SetupOf env coinsView base setup)
    (going : s.vpubNewProcessed = false) (run : planRound env setup s = .ok round)
    : ∃ made, chainRound env setup s = .ok (s.after env round made)
      ∧ Made env coinsView base setup s round made := by
  have amounts := planned.amounts sound
  have balanced : noteSum round.spent = valueOut round.settlement.vpubNew.toUInt64
      (chainOutputs env setup (dummyOutputs env s.mtx) round.recipient round.settlement) :=
    valueOut_chainOutputs planned.settled (planned.vpubNew_nonneg known) rfl amounts.divided
  have small : (0 : UInt64).toNat + noteSum round.spent ≤ maxMoney.toUInt64.toNat := by
    have range := amounts.range
    rw [maxMoney_toInt] at range
    rw [maxMoney_toUInt64, UInt64.toNat_zero]
    omega
  have balancedHere : (0 : UInt64).toNat + noteSum round.spent = _ :=
    (Nat.zero_add _).trans balanced
  obtain ⟨tree, inTree⟩ := planned.inTree
  obtain ⟨anchor, jsdesc, made, verified, isAnchor, holds⟩ := inTree.makes correct
    (planned.spent_ne_nil sound known going) planned.chose.spent_length
    (env.random s.mtx.vJoinSplit.length).dummyInputs small balancedHere
  have vpubOld : (if s.vpubOldProcessed then 0 else setup.vpubOldTarget.toUInt64) = 0 := by
    rw [known.vpubOld]
    split <;> rfl
  refine ⟨⟨0, round.settlement.vpubNew.toUInt64, round.change, round.notes, dummyInputs env s.mtx,
    chainOutputs env setup (dummyOutputs env s.mtx) round.recipient round.settlement, jsdesc⟩, ?_,
    rfl, rfl, rfl, rfl, rfl, ?_, ⟨tree, inTree, isAnchor⟩, ?_⟩
  · rw [← anchor] at made
    have created := createJSDescription_ok.mpr ⟨sound.version, made, verified⟩
    simp only [chainRound, run, ok_bind, vpubOld]
    exact bind_ok.mpr ⟨_, created, rfl⟩
  · exact (valueIn_fillInputs 0 _ planned.chose.spent_length).trans balancedHere
  · intro pos
    refine holds setup.changeKey ?_
    unfold chainOutputs
    rw [if_pos (gt_zero_iff.mpr pos)]

theorem findChange_shuffled (r : Fin 2) : findChange (mappedShuffle r (0, 1)) = some r := by
  obtain rfl | rfl : r = 0 ∨ r = 1 := by omega
  · rfl
  · rfl

section

variable {made : JoinSplitMade} (planned : Planned env coinsView base setup s round)
  (isMade : Made env coinsView base setup s round made)
include planned isMade

/-- The change of the joinsplit that was made is pending. -/
theorem Made.pending (pos : 0 < round.settlement.jsChange.toInt)
    : ChangePending env.crypto coinsView base setup.changeKey s.mtx.joinSplitPubKey round.treestate
        made.jsdesc (s.after env round made).changeOutputIndex round.settlement.jsChange := by
  obtain ⟨tree, inTree, anchor⟩ := isMade.inTree
  refine ⟨⟨tree, ?_, inTree.treeOf⟩, _, _, ?_, isMade.holds pos, ?_⟩
  · rw [anchor]
    exact inTree.found
  · rw [Chaining.after, Chaining.next, if_pos (gt_zero_iff.mpr pos), findChange_shuffled]
  · rw [isMade.vjsout]
    exact chainOutputs_change planned.settled.kept rfl

/-- A round keeps the loop on its way. -/
theorem Sound.next (sound : Sound env coinsView base setup s)
    (known : SetupOf env coinsView base setup) (going : s.vpubNewProcessed = false)
    : Sound env coinsView base setup (s.after env round made) := by
  have amounts := planned.amounts sound
  have ⟨inputs, divided, owed, outputs, range⟩ := amounts
  have rest := planned.chose.outputSum_eq planned.settled
  have worth := sound.worth going
  have before := sound.range
  have sent := planned.settled.sent
  have published := planned.settled.published
  have rank := planned.rank_lt sound known going
  have room := sound.room
  have finish := planned.chose.last_rank planned.settled
  refine ⟨sound.version, ?_, ?_, ?_, planned.settled.kept, ?_, ?_, ?_, ?_, ?_, ?_⟩
  · intro nothing
    exact absurd nothing (by simp [Chaining.after, Chaining.next])
  · intro input mem
    change input ∈ round.jsInputsDeque at mem
    rw [planned.chose.notes.2] at mem
    exact sound.notes input (mem_of_mem_drop mem)
  · change ∀ output ∈ round.jsOutputsDeque, _
    rw [planned.chose.outputs, forall_mem_append]
    exact ⟨(owed_due planned.settled round.recipient).2,
      fun output old => sound.outputs output (mem_of_mem_tail old)⟩
  · change round.settlement.jsChange.toInt + noteSum round.jsInputsDeque ≤ _
    have new := planned.vpubNew_nonneg known
    omega
  · intro notLast
    exact amounts.worth planned.chose planned.settled worth notLast
  · intro notLast
    exact planned.chose.left planned.settled notLast
  · intro isLast
    change round.last = true at isLast
    have nothing := finish.mpr isLast
    rw [isLast, if_pos rfl] at published
    rw [published] at divided
    obtain ⟨noInputs, noOutputs⟩ := Nat.add_eq_zero_iff.mp nothing
    rw [length_eq_zero_iff.mp noInputs, noteSum_nil] at inputs
    rw [length_eq_zero_iff.mp noOutputs] at rest
    change ((0 : Nat) : Int) = _ at rest
    refine ⟨nothing, ?_⟩
    rw [← toInt_inj]
    change round.settlement.jsChange.toInt = 0
    omega
  · change base.length + round.treestate.previousCommitments.length
      + 2 * (round.jsInputsDeque.length + round.jsOutputsDeque.length) ≤ _
    have grown : round.treestate.previousCommitments.length
        ≤ s.treestate.previousCommitments.length + 2 := by
      have isFrom := planned.change
      generalize round.change = change at isFrom
      cases isFrom with
      | nothing _ reset => simp [reset]
      | previous _ _ _ grown => simp [grown]
    omega
  · intro pos
    have pending := isMade.pending planned pos
    rw [Chaining.after, prevJoinSplit_next]
    exact pending

end

/-! The amounts of a chaining loop whose rounds return. Before the last joinsplit, the change and
the notes that are left are worth what is left to pay, also where notes or payments have no value.
-/

variable {start : Chaining} {made : JoinSplitMade} {outputMap : Fin 2 × Fin 2}

/-- The change of a joinsplit that was made can be found and opened. -/
theorem Makes.holds (correct : env.crypto.Correct) (makes : Makes env setup s round made outputMap)
    (pos : 0 < round.settlement.jsChange.toInt)
    : findChange outputMap = some (env.random s.mtx.vJoinSplit.length).genOutputs
      ∧ HoldsNote env.crypto setup.changeKey s.mtx.joinSplitPubKey made.jsdesc
        (env.random s.mtx.vJoinSplit.length).genOutputs made.vjsout.2.value := by
  obtain ⟨-, run, -⟩ := createJSDescription_ok.mp makes.created
  obtain ⟨-, rfl, proof, isDesc⟩ := randomized_returned run
  refine ⟨findChange_shuffled _, ?_⟩
  rw [isDesc]
  refine describe_holds correct ?_ proof
  rw [makes.vjsout, chainOutputs, if_pos (gt_zero_iff.mpr pos)]

/-- What holds of the amounts while the loop runs, and at its end. -/
structure Worth (env : BuilderEnv) (setup : ChainSetup) (s : Chaining) : Prop where
  kept : 0 ≤ s.jsChange.toInt
  worth : s.vpubNewProcessed = false → s.jsChange.toInt + noteSum s.jsInputsDeque
    = outputSum s.jsOutputsDeque + setup.vpubNewTarget.toInt
  going : s.vpubNewProcessed = false → 0 < s.rank
  done : s.vpubNewProcessed = true → s.rank = 0
  pending : 0 < s.jsChange.toInt → s.mtx.vJoinSplit ≠ []
    ∧ ∃ index value, s.changeOutputIndex = some index
      ∧ HoldsNote env.crypto setup.changeKey s.mtx.joinSplitPubKey s.prevJoinSplit index value
      ∧ (value.toNat : Int) = s.jsChange.toInt

/-- The change that a round has taken is worth what it was. -/
theorem Worth.change (worth : Worth env setup s) (chose : Chose env setup s round)
    : (noteSum round.change.toList : Int) = s.jsChange.toInt := by
  obtain ⟨jsAnchor, consumed, -⟩ := chose.found
  rcases consumeChange_returned consumed with ⟨notPositive, noChange, -⟩
    | ⟨pos, coinsView, tree, witness, plaintext, -, -, decrypted, isChange, -⟩
  · rw [gt_zero_iff] at notPositive
    have kept := worth.kept
    rw [noChange, Option.toList_none, noteSum_nil]
    omega
  · obtain ⟨-, index, value, isIndex, ⟨same, opened, isValue, -⟩, amount⟩ :=
      worth.pending (gt_zero_iff.mp pos)
    rw [isIndex] at decrypted
    cases opened.symm.trans (mapError_ok.mp decrypted)
    rw [isChange, ← amount, ← isValue]
    simp [noteSum, SproutNotePlaintext.note]

theorem Worth.amounts (worth : Worth env setup s) (makes : Makes env setup s round made outputMap)
    : Amounts s round := by
  obtain ⟨provable, -⟩ := createJSDescription_returned makes.created
  have range := provable.range
  obtain ⟨-, settled, -⟩ := makes.settled
  refine makes.chose.amounts settled (worth.change makes.chose) ?_
  rw [makes.valueIn_eq, maxMoney_toUInt64] at range
  rw [maxMoney_toInt]
  omega

theorem Worth.next (correct : env.crypto.Correct) (worth : Worth env setup s)
    (going : s.vpubNewProcessed = false) (makes : Makes env setup s round made outputMap)
    : Worth env setup (s.next round made outputMap) := by
  obtain ⟨-, settled, -⟩ := makes.settled
  have amounts := worth.amounts makes
  have finish := makes.chose.last_rank settled
  refine ⟨settled.kept, ?_, ?_, finish.mpr, ?_⟩
  · intro notLast
    exact amounts.worth makes.chose settled (worth.worth going) notLast
  · intro notLast
    exact makes.chose.left settled notLast
  intro pos
  change 0 < round.settlement.jsChange.toInt at pos
  obtain ⟨found, holds⟩ := makes.holds correct pos
  refine ⟨by simp [Chaining.next], (env.random s.mtx.vJoinSplit.length).genOutputs,
    made.vjsout.2.value, ?_, ?_, ?_⟩
  · change (if round.settlement.jsChange > 0 then findChange outputMap else _) = _
    rw [if_pos (gt_zero_iff.mpr pos), found]
  · rw [prevJoinSplit_next]
    exact holds
  · rw [makes.vjsout]
    exact chainOutputs_change settled.kept rfl

theorem Reached.worth (correct : env.crypto.Correct) (reached : Reached env setup start s)
    (initial : Worth env setup start)
    : Worth env setup s := by
  induction reached with
  | start => exact initial
  | round _ going run ih =>
    obtain ⟨round, made, outputMap, makes, rfl⟩ := chainRound_makes run
    exact ih.next correct going makes

/-- What the joinsplits take from the public pool in a run that returns is nothing. -/
theorem Reached.vpubOldTarget (reached : Reached env setup start s)
    (going : start.vpubNewProcessed = false) (processed : s.vpubNewProcessed = true)
    (notYet : start.vpubOldProcessed = false)
    : setup.vpubOldTarget = 0 := by
  have first : s.vpubOldProcessed = true → setup.vpubOldTarget = 0 := by
    clear processed
    induction reached with
    | start =>
      intro already
      rw [notYet] at already
      cases already
    | @round s next _ _ run ih =>
      intro _
      obtain ⟨round, made, outputMap, makes, rfl⟩ := chainRound_makes run
      cases before : s.vpubOldProcessed with
      | true => exact ih before
      | false =>
        have zero := makes.vpubOld_eq_zero
        rw [makes.vpubOld, before] at zero
        have isZero : setup.vpubOldTarget.toUInt64 = 0 := by
          rw [← UInt64.toNat_inj]
          exact zero
        rw [← toInt64_toUInt64 setup.vpubOldTarget, isZero]
        rfl
  cases reached with
  | start =>
    rw [going] at processed
    cases processed
  | round _ _ run =>
    obtain ⟨round, made, outputMap, -, rfl⟩ := chainRound_makes run
    exact first rfl

variable {builder : TransactionBuilder} {first : JSInput}

/-- The loop is set up with what the notes are worth more than the outputs, if they are. -/
theorem chainSetup_target {net}
    (isNet : (noteSum builder.jsInputs : Int) - outputSum builder.jsOutputs = net)
    (range : -2 ^ 63 ≤ net ∧ net < 2 ^ 63)
    : ((builder.chainSetup first).vpubOldTarget = 0
        ∧ (builder.chainSetup first).vpubNewTarget.toInt = net)
      ∨ ((builder.chainSetup first).vpubOldTarget ≠ 0 ∧ net < 0) := by
  have value : (jsValueOut builder.jsInputs builder.jsOutputs).toInt = net := by
    rw [jsValueOut, foldl_outputs, inputValue_eq, ← ofInt_add, ← sub_eq_add_neg, isNet]
    exact MachineInt.toInt_ofInt range
  simp only [TransactionBuilder.chainSetup]
  generalize jsValueOut builder.jsInputs builder.jsOutputs = out at value
  have sign : out < 0 ↔ net < 0 := by rw [lt_iff_toInt_lt, value, toInt_zero]
  by_cases negative : out < 0
  · refine .inr ⟨?_, sign.mp negative⟩
    rw [if_pos negative]
    intro zero
    rw [← Int64.neg_zero, Int64.neg_inj] at zero
    rw [zero] at negative
    exact absurd negative (by decide)
  · refine .inl ⟨if_neg negative, ?_⟩
    rw [sign] at negative
    split
    · exact value
    next other =>
      rw [gt_zero_iff] at other
      rw [toInt_zero]
      omega

/-- In a run that returns, the notes are worth the outputs and what goes to the public pool. -/
theorem Reached.target (reached : Reached env (builder.chainSetup first) builder.chainStart s)
    (processed : s.vpubNewProcessed = true)
    (range : -2 ^ 63 ≤ (noteSum builder.jsInputs : Int) - outputSum builder.jsOutputs
      ∧ (noteSum builder.jsInputs : Int) - outputSum builder.jsOutputs < 2 ^ 63)
    : (builder.chainSetup first).vpubNewTarget.toInt
      = (noteSum builder.jsInputs : Int) - outputSum builder.jsOutputs := by
  rcases chainSetup_target rfl range with ⟨-, target⟩ | ⟨some, -⟩
  · exact target
  · exact absurd (reached.vpubOldTarget rfl processed rfl) some

/-- The loop starts with notes that are worth what is to be paid, if that is not less. -/
theorem worth_start (nonempty : builder.jsInputs ≠ [])
    (target : (builder.chainSetup first).vpubNewTarget.toInt
      = (noteSum builder.jsInputs : Int) - outputSum builder.jsOutputs)
    : Worth env (builder.chainSetup first) builder.chainStart := by
  have zero : (0 : CAmount).toInt = 0 := rfl
  refine ⟨le_refl _, ?_, ?_, nofun, nofun⟩
  · intro _
    change (0 : CAmount).toInt + noteSum builder.jsInputs = outputSum builder.jsOutputs + _
    omega
  · intro _
    have := length_pos_iff.mpr nonempty
    change 0 < builder.jsInputs.length + _
    omega

end Resistance.Builder

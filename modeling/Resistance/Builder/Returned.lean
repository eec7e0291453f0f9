import Resistance.Builder.TransactionBuilder
import Resistance.Sprout.Spending

/-! The inputs of one round of the chaining loop: the change of the joinsplit before and the next
notes are found, with witnesses for one tree.
-/

namespace Resistance.Builder

open Primitives Consensus Zcash Validation Coins Sprout Lib Lib.Checks List MachineInt

variable {env : BuilderEnv} {setup : ChainSetup} {coinsView : ShieldedState}
  {base : List Uint256} {s : Chaining}

theorem gt_zero_iff {a : CAmount} : a > 0 ↔ 0 < a.toInt := by
  rw [gt_iff_lt, Int64.lt_iff_toInt_lt, Int64.toInt_zero]

/-- The joinsplit whose change is pending. -/
def Chaining.prevJoinSplit (s : Chaining) : JSDescription := s.mtx.vJoinSplit.getLastD {}

/-- The change is consumed as an input. -/
theorem consumeChange_ok (view : setup.coinsView = some coinsView) (pos : 0 < s.jsChange.toInt)
    (pending : ChangePending env.crypto coinsView base setup.changeKey s.mtx.joinSplitPubKey
      s.treestate s.prevJoinSplit s.changeOutputIndex s.jsChange)
    (fresh : FreshRoot env.crypto coinsView s.treestate .jsDescException s.prevJoinSplit
      s.changeOutputIndex)
    (room : base.length + s.treestate.previousCommitments.length + 2 ≤ 2 ^ sproutTreeDepth)
    : ∃ input tree treestate,
        consumeChange env setup s s.treestate
          = .ok (some input, tree.root env.crypto.hash sproutTreeDepth, treestate)
        ∧ InTree env.crypto coinsView base treestate tree [input]
        ∧ treestate.previousCommitments
          = s.treestate.previousCommitments ++ s.prevJoinSplit.commitments.toList
        ∧ (input.note.value.toNat : Int) = s.jsChange.toInt
        ∧ env.crypto.cm input.note ∈ s.prevJoinSplit.commitments.toList := by
  obtain ⟨next, tree, witness, plaintext, updated, decrypted, inTree, grown, isValue, committed⟩ :=
    pending.spend fresh room
      (fun _ => .jsDescException "Error decrypting output note of previous JoinSplit")
  refine ⟨_, tree, next, ?_, inTree, grown, isValue, committed⟩
  unfold Chaining.prevJoinSplit at updated decrypted
  rw [consumeChange, if_pos (gt_zero_iff.mpr pos), view]
  simp only [updated, decrypted]
  rfl

/-- The number of notes that a round takes. -/
def noteSlots (change : Bool) : Nat := if change then 1 else 2

/-- The next notes are consumed, with witnesses that lead to the root of the tree. -/
theorem consumeNotes_ok {treestate tree inputs deque} (change : Bool) (jsAnchor : Uint256)
    (inTree : InTree env.crypto coinsView base treestate tree inputs)
    (notes : ∀ input ∈ deque, NoteAmong env.crypto base input)
    (anchored : change = true → jsAnchor = tree.root env.crypto.hash sproutTreeDepth)
    (noHistory : change = false → treestate.previousCommitments = [])
    : ∃ taken,
        consumeNotes env change treestate.previousCommitments jsAnchor deque
          = .ok (taken, deque.drop (noteSlots change))
        ∧ taken.map JSInput.note = (deque.take (noteSlots change)).map JSInput.note
        ∧ InTree env.crypto coinsView base treestate tree (inputs ++ taken) := by
  have each : ∀ input ∈ deque.take (noteSlots change), ∃ consumed,
      consumeNote env change treestate.previousCommitments jsAnchor input = .ok consumed
      ∧ consumed.note = input.note
        ∧ NoteAmong env.crypto (base ++ treestate.previousCommitments) consumed := by
    intro input mem
    have among := notes input (mem_of_mem_take mem)
    cases change with
    | true =>
      have room := inTree.room
      rw [length_append] at room
      obtain ⟨witness, appended, grown⟩ := among.addHistory room
      refine ⟨{ input with witness }, ?_, rfl, grown⟩
      have root := grown.root_eq inTree.room inTree.treeOf
      refine bind_ok.mpr ⟨witness, appended, bind_ok.mpr ⟨(), throwIf_ok.mpr ?_, rfl⟩⟩
      rw [root, not_not]
      exact anchored rfl
    | false =>
      rw [noHistory rfl, append_nil]
      exact ⟨input, rfl, rfl, among⟩
  obtain ⟨taken, run, kept, among⟩ := mapM_keeps each
  exact ⟨taken, bind_ok.mpr ⟨taken, run, rfl⟩, kept, inTree.room, inTree.treeOf, inTree.found,
    forall_mem_append.mpr ⟨inTree.notes, among⟩⟩

/-! Rounds of the chaining loop that have returned, whatever notes and payments the loop was given:
a joinsplit was made that passes the prover's checks.
-/

variable {round : Round} {made : JoinSplitMade}

theorem foldl_inputs (inputs : List JSInput) (a : CAmount)
    : inputs.foldl (fun sum input => sum + input.note.value.toInt64) a
      = a + Int64.ofInt (noteSum inputs) := by
  have adds (a : CAmount) (input : JSInput)
      : a + input.note.value.toInt64 = a + Int64.ofInt input.note.value.toNat := by
    rw [ofInt_toNat]
  have sum : (inputs.map fun input => (input.note.value.toNat : Int)).sum = noteSum inputs := by
    simp [noteSum, Function.comp_def]
  rw [foldl_ofInt adds, sum]

theorem foldl_outputs (outputs : List JSOutput) (a : CAmount)
    : outputs.foldl (fun sum output => sum - output.value.toInt64) a
      = a + Int64.ofInt (-(outputSum outputs : Int)) := by
  have adds (a : CAmount) (output : JSOutput)
      : a - output.value.toInt64 = a + Int64.ofInt (-(output.value.toNat : Int)) := by
    rw [Int64.ofInt_neg, ofInt_toNat, Int64.sub_eq_add_neg]
  have sum : (outputs.map fun output => -(output.value.toNat : Int)).sum
      = -(outputSum outputs : Int) := by
    unfold outputSum
    induction outputs with
    | nil => rfl
    | cons output outputs ih =>
      rw [map_cons, sum_cons, map_cons, sum_cons]
      omega
  rw [foldl_ofInt adds, sum]

theorem inputValue_eq (inputs : List JSInput) : inputValue inputs = Int64.ofInt (noteSum inputs)
    := by
  rw [inputValue, foldl_inputs, Int64.zero_add]

theorem inputValue_toInt {inputs} (small : noteSum inputs ≤ maxMoney.toInt)
    : (inputValue inputs).toInt = noteSum inputs := by
  rw [maxMoney_toInt] at small
  rw [inputValue_eq]
  exact toInt_ofInt ⟨by omega, by omega⟩

/-- The number of notes and payments that are left. -/
def Chaining.rank (s : Chaining) : Nat := s.jsInputsDeque.length + s.jsOutputsDeque.length

/-- The number of notes that the next round takes. -/
def Chaining.slots (s : Chaining) : Nat := noteSlots (s.jsChange > 0)

theorem slots_range (s : Chaining) : 0 < s.slots ∧ s.slots ≤ 2 := by
  unfold Chaining.slots noteSlots
  split <;> omega

/-- What a recipient is still owed is what is due. -/
theorem owed_due {last value amount target settlement}
    (settled : Settled last value amount target settlement) (recipient : JSOutput)
    : (outputSum (owed recipient settlement) : Int) = (settlement.due.getD 0).toInt
      ∧ ∀ output ∈ owed recipient settlement, 0 < output.value.toNat := by
  rw [owed]
  cases isDue : settlement.due with
  | none => exact ⟨rfl, forall_mem_nil _⟩
  | some due =>
    have pos := (settled.due due isDue).2.1
    have exact := toNat_toUInt64 pos.le
    exact ⟨by simpa [outputSum] using exact, forall_mem_singleton.mpr (by dsimp only; omega)⟩

/-- The inputs that a round has chosen. -/
def Round.spent (round : Round) : List JSInput := round.change.toList ++ round.notes

/-- The inputs and payments that a round has chosen, and how it divides them. -/
structure Chose (env : BuilderEnv) (setup : ChainSetup) (s : Chaining) (round : Round) : Prop where
  found : ∃ jsAnchor,
    consumeChange env setup s s.resetTreestate = .ok (round.change, jsAnchor, round.treestate)
    ∧ consumeNotes env (s.jsChange > 0) round.treestate.previousCommitments jsAnchor
      s.jsInputsDeque = .ok (round.notes, round.jsInputsDeque)
  recipient : round.recipient = s.recipient env
  last : round.last = (s.jsOutputsDeque.tail.isEmpty && round.jsInputsDeque.isEmpty)
  settled : settle (.jsDescException
      s!"Insufficient funds for vpub_new {formatMoney setup.vpubNewTarget}") round.last
    (inputValue round.spent) round.recipient.value.toInt64 setup.vpubNewTarget
    = .ok round.settlement
  outputs : round.jsOutputsDeque
    = owed round.recipient round.settlement ++ s.jsOutputsDeque.tail

theorem planRound_chose (run : planRound env setup s = .ok round) : Chose env setup s round := by
  simp only [planRound, bind_ok] at run
  obtain ⟨⟨change, jsAnchor, treestate⟩, consumed, _, taken, settlement, settled, ⟨⟩⟩ := run
  exact ⟨⟨jsAnchor, consumed, taken⟩, rfl, rfl, settled, rfl⟩

variable {jsAnchor : Uint256} {mtx : CMutableTransaction} {vpubNew : UInt64}
  {vjsout : JSOutput × JSOutput} {jsdesc : JSDescription} {fuel : Nat}

/-- The change was an input, or there was none. -/
theorem consumeChange_returned {treestate next change}
    (run : consumeChange env setup s treestate = .ok (change, jsAnchor, next))
    : (¬ s.jsChange > 0 ∧ change = none ∧ next = treestate)
      ∨ (s.jsChange > 0 ∧ ∃ coinsView tree changeWitness plaintext, setup.coinsView = some coinsView
          ∧ treestate.update env.crypto coinsView .jsDescException s.prevJoinSplit
            s.changeOutputIndex = .ok (next, tree, some changeWitness)
          ∧ decryptChange env.crypto
            (fun _ => .jsDescException "Error decrypting output note of previous JoinSplit")
            setup.changeKey s.mtx.joinSplitPubKey s.prevJoinSplit (s.changeOutputIndex.getD 0)
            = .ok plaintext
          ∧ change = some ⟨changeWitness, plaintext.note (env.crypto.address setup.changeKey),
            setup.changeKey⟩
          ∧ jsAnchor = tree.root env.crypto.hash sproutTreeDepth) := by
  unfold consumeChange at run
  split at run
  next pos =>
    refine .inr ⟨pos, ?_⟩
    split at run
    next => cases run
    next coinsView isView =>
      obtain ⟨⟨updated, tree, changeWitness⟩, update, more⟩ := bind_ok.mp run
      cases changeWitness with
      | none => cases more
      | some changeWitness =>
        obtain ⟨plaintext, decrypted, result⟩ := bind_ok.mp more
        cases result
        exact ⟨coinsView, tree, changeWitness, plaintext, isView, update, decrypted, rfl, rfl⟩
  next other =>
    cases run
    exact .inl ⟨other, rfl, rfl⟩

theorem consumeNote_note {change previousCommitments input consumed}
    (run : consumeNote env change previousCommitments jsAnchor input = .ok consumed)
    : consumed.note = input.note := by
  cases change with
  | true =>
    obtain ⟨witness, -, more⟩ := bind_ok.mp run
    obtain ⟨-, -, result⟩ := bind_ok.mp more
    cases result
    rfl
  | false =>
    cases run
    rfl

/-- The notes that were taken are the next ones. -/
theorem Chose.notes (chose : Chose env setup s round)
    : round.notes.map JSInput.note = (s.jsInputsDeque.take s.slots).map JSInput.note
      ∧ round.jsInputsDeque = s.jsInputsDeque.drop s.slots := by
  obtain ⟨jsAnchor, -, run⟩ := chose.found
  obtain ⟨notes, consumed, result⟩ := bind_ok.mp run
  obtain ⟨rfl, isRest⟩ := Prod.mk.inj (pure_ok.mp result)
  refine ⟨?_, isRest.symm⟩
  have each := Codec.forall₂_of_mapM consumed
  change Forall₂ _ (s.jsInputsDeque.take s.slots) round.notes at each
  generalize s.jsInputsDeque.take s.slots = deque at each
  generalize round.notes = notes at each
  induction each with
  | nil => rfl
  | cons first _ ih => rw [map_cons, map_cons, consumeNote_note first, ih]

/-- The change and the notes that a round takes, with those that it leaves, are worth what there
was before.
-/
theorem noteSum_round {change : Option JSInput} {taken}
    (worth : (noteSum change.toList : Int) = s.jsChange.toInt)
    (kept : taken.map JSInput.note = (s.jsInputsDeque.take s.slots).map JSInput.note)
    : (noteSum (change.toList ++ taken) : Int) + noteSum (s.jsInputsDeque.drop s.slots)
      = s.jsChange.toInt + noteSum s.jsInputsDeque := by
  have same : noteSum taken = noteSum (s.jsInputsDeque.take s.slots) := by
    rw [noteSum, kept, noteSum]
  have parts := noteSum_append (s.jsInputsDeque.take s.slots) (s.jsInputsDeque.drop s.slots)
  rw [take_append_drop] at parts
  rw [noteSum_append]
  omega

section

variable (chose : Chose env setup s round)
include chose

theorem Chose.noteSum_eq (worth : (noteSum round.change.toList : Int) = s.jsChange.toInt)
    : (noteSum round.spent : Int) + noteSum round.jsInputsDeque
      = s.jsChange.toInt + noteSum s.jsInputsDeque := by
  rw [chose.notes.2]
  exact noteSum_round worth chose.notes.1

theorem Chose.spent_length : round.spent.length ≤ 2 := by
  have lengths := congrArg length chose.notes.1
  have slots := slots_range s
  rw [length_map, length_map, length_take] at lengths
  obtain ⟨jsAnchor, consumed, -⟩ := chose.found
  rw [Round.spent, length_append]
  rcases consumeChange_returned consumed with ⟨-, noChange, -⟩
    | ⟨pos, _, _, _, _, -, -, -, isChange, -⟩
  · rw [noChange, Option.toList_none, length_nil]
    omega
  · have one : s.slots = 1 := by
      simp [Chaining.slots, noteSlots, pos]
    rw [isChange, Option.toList_some, length_singleton]
    omega

/-- A round without a note or change as its input is at a point where nothing of value is left. -/
theorem Chose.starved (worth : (noteSum round.change.toList : Int) = s.jsChange.toInt)
    (total : s.jsChange.toInt + noteSum s.jsInputsDeque
      = outputSum s.jsOutputsDeque + setup.vpubNewTarget.toInt)
    (rank : 0 < s.rank) (target : 0 ≤ setup.vpubNewTarget.toInt) (nothing : round.spent = [])
    : s.jsOutputsDeque ≠ [] ∧ outputSum s.jsOutputsDeque = 0 ∧ setup.vpubNewTarget.toInt = 0 := by
  obtain ⟨noChange, noNotes⟩ := append_eq_nil_iff.mp nothing
  have taken := chose.notes.1
  rw [noNotes, map_nil, eq_comm, map_eq_nil_iff, take_eq_nil_iff] at taken
  have noInputs : s.jsInputsDeque = [] := taken.resolve_left (slots_range s).1.ne'
  rw [noChange, noteSum_nil] at worth
  rw [noInputs, noteSum_nil] at total
  rw [Chaining.rank, noInputs, length_nil, Nat.zero_add] at rank
  exact ⟨length_pos_iff.mp rank, by omega, by omega⟩

section

variable (settled : Settled round.last (inputValue round.spent) round.recipient.value.toInt64
  setup.vpubNewTarget round.settlement)
include settled

/-- The payments that a round leaves. -/
theorem Chose.outputSum_eq
    : (outputSum round.jsOutputsDeque : Int)
      = (round.settlement.due.getD 0).toInt + outputSum s.jsOutputsDeque.tail := by
  rw [chose.outputs, ← (owed_due settled round.recipient).1]
  simp [outputSum]

/-- The last round leaves nothing. -/
theorem Chose.last_rank
    : round.jsInputsDeque.length + round.jsOutputsDeque.length = 0 ↔ round.last = true := by
  rw [chose.last, Bool.and_eq_true, List.isEmpty_iff, List.isEmpty_iff, Nat.add_eq_zero_iff,
    length_eq_zero_iff, length_eq_zero_iff]
  constructor
  · rintro ⟨noInputs, noOutputs⟩
    rw [chose.outputs] at noOutputs
    exact ⟨(append_eq_nil_iff.mp noOutputs).2, noInputs⟩
  rintro ⟨noOutputs, noInputs⟩
  have isLast : round.last = true := by
    rw [chose.last, noOutputs, noInputs]
    rfl
  refine ⟨noInputs, ?_⟩
  rw [chose.outputs, owed, noOutputs]
  cases isDue : round.settlement.due with
  | none => rfl
  | some due =>
    have notLast := (settled.due due isDue).1
    rw [isLast] at notLast
    cases notLast

theorem Chose.left (notLast : round.last = false)
    : 0 < round.jsInputsDeque.length + round.jsOutputsDeque.length := by
  have finish := chose.last_rank settled
  rw [notLast] at finish
  exact Nat.pos_of_ne_zero fun none => absurd (finish.mp none) Bool.false_ne_true

end

end

/-- The amounts of a round as whole numbers. -/
structure Amounts (s : Chaining) (round : Round) : Prop where
  inputs : (noteSum round.spent : Int) + noteSum round.jsInputsDeque
    = s.jsChange.toInt + noteSum s.jsInputsDeque
  divided : round.settlement.value.toInt + round.settlement.jsChange.toInt
    + round.settlement.vpubNew.toInt = noteSum round.spent
  owed : round.settlement.value.toInt + (round.settlement.due.getD 0).toInt
    = round.recipient.value.toNat
  outputs : outputSum s.jsOutputsDeque
    = round.recipient.value.toNat + outputSum s.jsOutputsDeque.tail
  range : (noteSum round.spent : Int) ≤ maxMoney.toInt

section

variable (chose : Chose env setup s round)
  (settled : Settled round.last (inputValue round.spent) round.recipient.value.toInt64
    setup.vpubNewTarget round.settlement)
include chose settled

theorem Chose.amounts (worth : (noteSum round.change.toList : Int) = s.jsChange.toInt)
    (small : (noteSum round.spent : Int) ≤ maxMoney.toInt)
    : Amounts s round := by
  have divided := settled.divided
  rw [inputValue_toInt small] at divided
  have owed := settled.owed
  have amount : round.recipient.value.toInt64.toInt = round.recipient.value.toNat := by
    rw [← UInt64.toUInt64_toInt64 round.recipient.value, toNat_toUInt64, UInt64.toUInt64_toInt64]
    have sent := settled.sent
    have due := (owed_due settled round.recipient).1
    omega
  rw [amount] at owed
  have isDummy : (dummyOutputs env s.mtx).1.value = 0 := rfl
  have outputs := outputSum_head s.jsOutputsDeque isDummy
  change _ = (s.recipient env).value.toNat + _ at outputs
  rw [← chose.recipient] at outputs
  exact ⟨chose.noteSum_eq worth, divided, owed, outputs, small⟩

/-- What is left after a round is worth what is left to pay. -/
theorem Amounts.worth (amounts : Amounts s round)
    (worth : s.jsChange.toInt + noteSum s.jsInputsDeque
      = outputSum s.jsOutputsDeque + setup.vpubNewTarget.toInt)
    (notLast : round.last = false)
    : round.settlement.jsChange.toInt + noteSum round.jsInputsDeque
      = outputSum round.jsOutputsDeque + setup.vpubNewTarget.toInt := by
  obtain ⟨inputs, divided, owed, outputs, -⟩ := amounts
  have rest := chose.outputSum_eq settled
  have published := settled.published
  rw [notLast, if_neg Bool.false_ne_true] at published
  rw [published, Int64.toInt_zero] at divided
  omega

end

/-- The joinsplit that a round has made of what it has chosen. -/
structure Makes (env : BuilderEnv) (setup : ChainSetup) (s : Chaining) (round : Round)
    (made : JoinSplitMade) (outputMap : Fin 2 × Fin 2) : Prop where
  chose : Chose env setup s round
  vpubOld : made.vpubOld = if s.vpubOldProcessed then 0 else setup.vpubOldTarget.toUInt64
  vpubNew : made.vpubNew = round.settlement.vpubNew.toUInt64
  spent : made.spent = round.spent
  dummies : made.dummies = dummyInputs env s.mtx
  vjsout : made.vjsout
    = chainOutputs env setup (dummyOutputs env s.mtx) round.recipient round.settlement
  created : createJSDescription env s.mtx made.vpubOld made.vpubNew made.vjsin made.vjsout
    = .ok (made.jsdesc, outputMap)

theorem chainRound_makes {next} (run : chainRound env setup s = .ok next)
    : ∃ round made outputMap, Makes env setup s round made outputMap
      ∧ next = s.next round made outputMap := by
  obtain ⟨round, planned, more⟩ := bind_ok.mp run
  obtain ⟨⟨jsdesc, outputMap⟩, created, isNext⟩ := bind_ok.mp more
  cases isNext
  let made : JoinSplitMade := {
    vpubOld := if s.vpubOldProcessed then 0 else setup.vpubOldTarget.toUInt64
    vpubNew := round.settlement.vpubNew.toUInt64
    change := round.change
    notes := round.notes
    dummies := dummyInputs env s.mtx
    vjsout := chainOutputs env setup (dummyOutputs env s.mtx) round.recipient round.settlement
    jsdesc
  }
  exact ⟨round, made, outputMap, ⟨planRound_chose planned, rfl, rfl, rfl, rfl, rfl, created⟩, rfl⟩

variable {outputMap : Fin 2 × Fin 2}

theorem createJSDescription_ok {vpubOld vjsin outputMap}
    : createJSDescription env mtx vpubOld vpubNew vjsin vjsout = .ok (jsdesc, outputMap)
      ↔ (mtx.fOverwintered = true ∧ mtx.nVersion ≥ saplingTxVersion)
        ∧ randomized env.crypto (env.random mtx.vJoinSplit.length) mtx.joinSplitPubKey true
            (vjsin.1.root env.crypto) vjsin vjsout vpubOld vpubNew = .ok (jsdesc, outputMap)
        ∧ env.crypto.verify jsdesc mtx.joinSplitPubKey = true := by
  simp only [createJSDescription, bind_ok, throwIf_ok, not_not, Bool.not_eq_false, exists_const]
  constructor
  · rintro ⟨version, ⟨made, outputs⟩, run, verified, ⟨⟩⟩
    exact ⟨version, run, verified⟩
  · rintro ⟨version, run, verified⟩
    exact ⟨version, (jsdesc, outputMap), run, verified, rfl⟩

/-- The prover has accepted the joinsplit, and the description says what it is. -/
theorem createJSDescription_returned {vpubOld vjsin}
    (run : createJSDescription env mtx vpubOld vpubNew vjsin vjsout = .ok (jsdesc, outputMap))
    : Provable env.crypto (vjsin.1.root env.crypto) vjsin vjsout vpubOld vpubNew
      ∧ jsdesc.anchor = vjsin.1.root env.crypto
      ∧ jsdesc.vpubOld = vpubOld.toInt64 ∧ jsdesc.vpubNew = vpubNew.toInt64 := by
  obtain ⟨-, made, -⟩ := createJSDescription_ok.mp run
  obtain ⟨provable, -, proof, rfl⟩ := randomized_returned made
  exact ⟨provable, rfl, rfl, rfl⟩

theorem Makes.valueIn_eq (makes : Makes env setup s round made outputMap)
    : valueIn made.vpubOld made.vjsin = made.vpubOld.toNat + noteSum round.spent := by
  rw [JoinSplitMade.vjsin, makes.dummies, makes.spent]
  exact valueIn_fillInputs _ _ makes.chose.spent_length

theorem toUInt64_small {a : CAmount} (small : a.toUInt64.toNat ≤ maxMoney.toUInt64.toNat)
    : Money a.toInt ∧ (a.toUInt64.toNat : Int) = a.toInt := by
  have same : (a.toUInt64.toNat : Int) = a.toInt := by
    rw [maxMoney_toUInt64] at small
    rw [← toInt_toInt64 (by omega), Int64.toInt64_toUInt64]
  rw [maxMoney_toUInt64] at small
  refine ⟨⟨by omega, ?_⟩, same⟩
  rw [maxMoney_toInt]
  omega

/-- The second output of a joinsplit has the change, or no value. -/
theorem chainOutputs_change {dummies} {recipient}
    {settlement} (kept : 0 ≤ settlement.jsChange.toInt) (zero : dummies.2.value = 0)
    : ((chainOutputs env setup dummies recipient settlement).2.value.toNat : Int)
      = settlement.jsChange.toInt := by
  unfold chainOutputs
  split
  · exact toNat_toUInt64 kept
  next other =>
    rw [gt_zero_iff] at other
    rw [zero]
    change ((0 : Nat) : Int) = _
    omega

/-- What a round divides is what its joinsplit pays. -/
theorem valueOut_chainOutputs {last} {value amount target} {total : Nat}
    {dummies} {recipient} {settlement} (settled : Settled last value amount target settlement)
    (published : 0 ≤ settlement.vpubNew.toInt) (zero : dummies.2.value = 0)
    (divided : settlement.value.toInt + settlement.jsChange.toInt + settlement.vpubNew.toInt
      = total)
    : total = valueOut settlement.vpubNew.toUInt64
        (chainOutputs env setup dummies recipient settlement) := by
  have change : ((chainOutputs env setup dummies recipient settlement).2.value.toNat : Int)
      = settlement.jsChange.toInt :=
    chainOutputs_change settled.kept zero
  have new := toNat_toUInt64 published
  have sent : ((chainOutputs env setup dummies recipient settlement).1.value.toNat : Int)
      = settlement.value.toInt :=
    toNat_toUInt64 settled.sent
  unfold valueOut
  omega

section

variable (makes : Makes env setup s round made outputMap)
include makes

/-- What goes into the joinsplit of a round is in range, and divided without a rest. -/
theorem Makes.settled
    : (inputValue round.spent).toInt = noteSum round.spent
      ∧ Settled round.last (inputValue round.spent) round.recipient.value.toInt64
        setup.vpubNewTarget round.settlement
      ∧ 0 ≤ round.settlement.vpubNew.toInt := by
  obtain ⟨provable, -⟩ := createJSDescription_returned makes.created
  have range := provable.range
  have total := makes.valueIn_eq
  have outputs := provable.balanced
  rw [makes.vpubNew, makes.vjsout] at outputs
  change _ = round.settlement.vpubNew.toUInt64.toNat + round.settlement.value.toUInt64.toNat + _
    at outputs
  have small : (noteSum round.spent : Int) ≤ maxMoney.toInt := by
    rw [maxMoney_toUInt64] at range
    rw [maxMoney_toInt]
    omega
  have input := inputValue_toInt small
  obtain ⟨new, -⟩ := toUInt64_small (a := round.settlement.vpubNew) (by omega)
  obtain ⟨sent, -⟩ := toUInt64_small (a := round.settlement.value) (by omega)
  refine ⟨input, settle_divided makes.chose.settled ⟨by omega, ?_⟩ sent new, new.1⟩
  rwa [input]

/-- The notes and the change that go into a joinsplit are what comes out of it. -/
theorem Makes.balanced
    : noteSum round.spent = valueOut made.vpubNew made.vjsout := by
  obtain ⟨input, settled, new⟩ := makes.settled
  have divided := settled.divided
  rw [input] at divided
  rw [makes.vpubNew, makes.vjsout]
  exact valueOut_chainOutputs settled new rfl divided

/-- A round that returns has taken nothing from the public pool. -/
theorem Makes.vpubOld_eq_zero
    : made.vpubOld.toNat = 0 := by
  obtain ⟨provable, -⟩ := createJSDescription_returned makes.created
  have total := makes.valueIn_eq
  have balanced := makes.balanced
  have proved := provable.balanced
  omega

end

/-- The states that the loop comes through. -/
inductive Reached (env : BuilderEnv) (setup : ChainSetup) (start : Chaining) : Chaining → Prop
  | start : Reached env setup start start
  | round {s next : Chaining} (reached : Reached env setup start s)
      (going : s.vpubNewProcessed = false) (run : chainRound env setup s = .ok next)
      : Reached env setup start next

theorem chainRounds_reached {start final} (reached : Reached env setup start s)
    (run : chainRounds env setup fuel s = .ok final)
    : Reached env setup start final ∧ final.vpubNewProcessed = true := by
  fun_induction chainRounds env setup fuel s with
  | case1 s processed | case3 fuel s processed =>
    cases run
    exact ⟨reached, processed⟩
  | case2 => cases run
  | case4 fuel s going ih =>
    obtain ⟨next, round, rest⟩ := bind_ok.mp run
    exact ih next (.round reached (Bool.eq_false_of_not_eq_true going) round) rest

/-- A run with notes has come through the loop to its end. -/
theorem createJSDescriptions_reached {builder : TransactionBuilder} {first}
    {rest} {log} (isInputs : builder.jsInputs = first :: rest)
    (run : builder.createJSDescriptions env fuel = .ok (mtx, log))
    : ∃ final, Reached env (builder.chainSetup first) builder.chainStart final
      ∧ final.vpubNewProcessed = true ∧ final.mtx = mtx ∧ final.log = log := by
  unfold TransactionBuilder.createJSDescriptions at run
  rw [isInputs] at run
  obtain ⟨final, rounds, result⟩ := bind_ok.mp run
  obtain ⟨reached, processed⟩ := chainRounds_reached .start rounds
  cases result
  exact ⟨final, reached, processed, rfl, rfl⟩

end Resistance.Builder

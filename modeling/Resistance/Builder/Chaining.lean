import Resistance.Builder.ChainRound

/-! Whole runs of the chaining loop: every note is spent once, every recipient gets what was asked
for, and all change is spent again.
-/

namespace Resistance.Builder

open List Primitives Consensus Zcash Validation Coins Sprout Lib Lib.Checks

variable {env : BuilderEnv} {setup : ChainSetup} {coinsView : ShieldedState}
  {base : List Uint256} {s : Chaining} {round : Round} {made : JoinSplitMade}
  {jsInputs : List JSInput} {jsOutputs : List JSOutput}

/-- What the outputs send to an address with a memo. -/
def sentTo (addr : SproutPaymentAddress) (memo : Memo) (outputs : List JSOutput) : Nat :=
  outputSum (outputs.filter fun output => output.addr = addr ∧ output.memo = memo)

theorem sentTo_append (addr : SproutPaymentAddress) (memo : Memo) (left right : List JSOutput)
    : sentTo addr memo (left ++ right) = sentTo addr memo left + sentTo addr memo right := by
  simp [sentTo, outputSum]

/-- Outputs to one recipient send all that they are worth to it. -/
theorem sentTo_same {outputs} (recipient : JSOutput)
    (same : ∀ output ∈ outputs, output.addr = recipient.addr ∧ output.memo = recipient.memo)
    (addr : SproutPaymentAddress) (memo : Memo)
    : sentTo addr memo outputs
      = if recipient.addr = addr ∧ recipient.memo = memo then outputSum outputs else 0 := by
  unfold sentTo
  split
  next toThem =>
    rw [filter_eq_self.mpr]
    intro output mem
    obtain ⟨sameAddr, sameMemo⟩ := same output mem
    simp [sameAddr, sameMemo, toThem]
  next other =>
    rw [filter_eq_nil_iff.mpr]
    · rfl
    · intro output mem
      obtain ⟨sameAddr, sameMemo⟩ := same output mem
      simpa [sameAddr, sameMemo] using other

/-- What a round sends and still owes is what it was to send. -/
theorem Planned.sentTo_eq (planned : Planned env coinsView base setup s round)
    (amounts : Amounts s round) (isMade : Made env coinsView base setup s round made)
    (addr : SproutPaymentAddress) (memo : Memo)
    : sentTo addr memo [made.vjsout.1] + sentTo addr memo round.jsOutputsDeque
      = sentTo addr memo s.jsOutputsDeque := by
  have sent : (made.vjsout.1.value.toNat : Int) = round.settlement.value.toInt := by
    rw [isMade.vjsout]
    exact toNat_toUInt64 planned.settled.sent
  have total : outputSum (made.vjsout.1 :: owed round.recipient round.settlement)
      = outputSum [round.recipient] := by
    have owed := amounts.owed
    have due := (owed_due planned.settled round.recipient).1
    simp only [outputSum, map_cons, sum_cons, map_nil, sum_nil] at due ⊢
    omega
  have toRecipient : sentTo addr memo (made.vjsout.1 :: owed round.recipient round.settlement)
      = sentTo addr memo [round.recipient] := by
    have same : ∀ output ∈ made.vjsout.1 :: owed round.recipient round.settlement,
        output.addr = round.recipient.addr ∧ output.memo = round.recipient.memo := by
      intro output mem
      rcases mem_cons.mp mem with rfl | later
      · rw [isMade.vjsout]
        exact ⟨rfl, rfl⟩
      · obtain ⟨due, -, rfl⟩ := mem_map.mp later
        exact ⟨rfl, rfl⟩
    rw [sentTo_same _ same, sentTo_same round.recipient (by simp), total]
  have first : sentTo addr memo s.jsOutputsDeque
      = sentTo addr memo [round.recipient] + sentTo addr memo s.jsOutputsDeque.tail := by
    rw [planned.chose.recipient, Chaining.recipient]
    cases s.jsOutputsDeque with
    | nil =>
      have worthless : sentTo addr memo [(dummyOutputs env s.mtx).1] = 0 := by
        rw [sentTo_same (dummyOutputs env s.mtx).1 (by simp)]
        split <;> rfl
      exact worthless.symm
    | cons output outputs => exact sentTo_append addr memo [output] outputs
  rw [first, ← toRecipient, planned.chose.outputs, sentTo_append, ← Nat.add_assoc, ← sentTo_append]
  rfl

/-- The change of a joinsplit, if there is any, is the first input of the next one. -/
def Respends (crypto : SproutCrypto) (made next : JoinSplitMade) : Prop :=
  (made.vjsout.2.value = 0 ∧ next.change = none)
    ∨ ∃ input, next.change = some input ∧ input.note.value = made.vjsout.2.value
      ∧ crypto.cm input.note ∈ made.jsdesc.commitments.toList

/-- The joinsplits of a transaction spend the inputs and pay the outputs, but for those that are
left: they are balanced, every note is an input of one of them, every recipient gets what was asked
for, the inputs are in the tree of the joinsplit's anchor, and change is spent by the joinsplit that
follows.
-/
structure Delivers (crypto : SproutCrypto) (jsInputs : List JSInput) (jsOutputs : List JSOutput)
    (inputsLeft : List JSInput) (outputsLeft : List JSOutput) (vJoinSplit : List JSDescription)
    (log : List JoinSplitMade) : Prop where
  made : vJoinSplit = log.map JoinSplitMade.jsdesc
  balanced : ∀ made ∈ log, valueIn made.vpubOld made.vjsin = valueOut made.vpubNew made.vjsout
  consumed : (log.flatMap JoinSplitMade.notes).map JSInput.note ++ inputsLeft.map JSInput.note
    = jsInputs.map JSInput.note
  paid : ∀ addr memo, sentTo addr memo (log.map fun made => made.vjsout.1)
    + sentTo addr memo outputsLeft = sentTo addr memo jsOutputs
  anchored : ∀ made ∈ log, ∀ input ∈ made.spent, input.root crypto = made.jsdesc.anchor
  respent : log.IsChain (Respends crypto)
  first : ∀ made, log.head? = some made → made.change = none

/-- The rounds so far have delivered what is not left in the queues. -/
structure History (env : BuilderEnv) (jsInputs : List JSInput) (jsOutputs : List JSOutput)
    (s : Chaining) : Prop where
  delivers : Delivers env.crypto jsInputs jsOutputs s.jsInputsDeque s.jsOutputsDeque
    s.mtx.vJoinSplit s.log
  empty : s.log = [] → s.jsChange = 0
  last : ∀ made, s.log.getLast? = some made
    → (made.vjsout.2.value.toNat : Int) = s.jsChange.toInt

section

variable (history : History env jsInputs jsOutputs s)
  (planned : Planned env coinsView base setup s round)
include history planned

/-- The joinsplit of a round follows the one before. -/
theorem History.respends (isMade : Made env coinsView base setup s round made) {before}
    (isLast : s.log.getLast? = some before)
    : Respends env.crypto before made := by
  have value := history.last before isLast
  have prev : s.prevJoinSplit = before.jsdesc := by
    rw [Chaining.prevJoinSplit, history.delivers.made, getLastD_eq_getLast?, getLast?_map, isLast]
    rfl
  have isFrom := planned.change
  rw [← isMade.change] at isFrom
  unfold Respends
  generalize made.change = change at isFrom
  cases isFrom with
  | nothing zero _ =>
    refine .inl ⟨?_, rfl⟩
    rw [zero, Int64.toInt_zero] at value
    rw [← UInt64.toNat_inj, UInt64.toNat_zero]
    omega
  | previous _ isValue committed _ =>
    refine .inr ⟨_, rfl, ?_, ?_⟩
    · rw [← UInt64.toNat_inj]
      omega
    · rw [← prev]
      exact committed

theorem History.next (amounts : Amounts s round)
    (isMade : Made env coinsView base setup s round made)
    : History env jsInputs jsOutputs (s.after env round made) := by
  obtain ⟨isMap, balanced, consumed, paid, anchored, respent, first⟩ := history.delivers
  refine ⟨⟨?_, ?_, ?_, ?_, ?_, ?_, ?_⟩, ?_, ?_⟩
  · change s.mtx.vJoinSplit ++ [made.jsdesc] = (s.log ++ [made]).map JoinSplitMade.jsdesc
    rw [isMap, map_append]
    rfl
  · exact forall_mem_append.mpr ⟨balanced, by simpa using isMade.balanced⟩
  · change ((s.log ++ [made]).flatMap JoinSplitMade.notes).map JSInput.note
      ++ round.jsInputsDeque.map JSInput.note = _
    rw [flatMap_append, map_append, flatMap_singleton, isMade.notes, planned.chose.notes.1,
      planned.chose.notes.2, append_assoc, ← map_append, take_append_drop]
    exact consumed
  · intro addr memo
    change sentTo addr memo ((s.log ++ [made]).map fun made => made.vjsout.1)
      + sentTo addr memo round.jsOutputsDeque = _
    rw [map_append, sentTo_append, Nat.add_assoc, map_singleton, planned.sentTo_eq amounts isMade]
    exact paid addr memo
  · refine forall_mem_append.mpr ⟨anchored, ?_⟩
    obtain ⟨tree, inTree, anchor⟩ := isMade.inTree
    intro other mem input spent
    obtain rfl := mem_singleton.mp mem
    rw [anchor]
    exact (inTree.notes input spent).root_eq inTree.room inTree.treeOf
  · refine isChain_append.mpr ⟨respent, .singleton made, ?_⟩
    intro before isLast other isFirst
    obtain rfl : made = other := by simpa using isFirst
    exact history.respends planned isMade isLast
  · intro other isFirst
    rcases Option.or_eq_some_iff.mp (head?_append.symm.trans isFirst) with earlier | ⟨nothing, here⟩
    · exact first other earlier
    · cases here
      have zero := history.empty (head?_eq_none_iff.mp nothing)
      have isFrom := planned.change
      rw [← isMade.change] at isFrom
      generalize made.change = change at isFrom ⊢
      cases isFrom with
      | nothing _ _ => rfl
      | previous pos _ _ _ =>
        rw [zero] at pos
        exact absurd pos (by decide)
  · intro nothing
    exact absurd nothing (by simp [Chaining.after, Chaining.next])
  intro other isLast
  obtain rfl : made = other := by
    simpa [Chaining.after, Chaining.next] using isLast
  rw [isMade.vjsout]
  exact chainOutputs_change planned.settled.kept rfl

end

/-- No two trees that the loop comes through have the same root. -/
def CollisionFree (env : BuilderEnv) (coinsView : ShieldedState) (setup : ChainSetup)
    (start : Chaining) : Prop :=
  ∀ s, Reached env setup start s → 0 < s.jsChange.toInt
    → FreshRoot env.crypto coinsView s.treestate .jsDescException s.prevJoinSplit
      s.changeOutputIndex

section

variable (correct : env.crypto.Correct) (known : SetupOf env coinsView base setup)
include correct known

/-- A round goes well, and brings the loop nearer to its end. -/
theorem Sound.step (sound : Sound env coinsView base setup s)
    (history : History env jsInputs jsOutputs s) (going : s.vpubNewProcessed = false)
    (fresh : 0 < s.jsChange.toInt
      → FreshRoot env.crypto coinsView s.treestate .jsDescException s.prevJoinSplit
        s.changeOutputIndex)
    : ∃ next, chainRound env setup s = .ok next ∧ next.rank < s.rank
      ∧ Sound env coinsView base setup next ∧ History env jsInputs jsOutputs next := by
  obtain ⟨round, run, planned⟩ := sound.plan known going fresh
  have amounts := planned.amounts sound
  obtain ⟨made, created, isMade⟩ := planned.makes correct sound known going run
  exact ⟨_, created, planned.rank_lt sound known going, sound.next planned isMade known going,
    history.next planned amounts isMade⟩

/-- The loop ends after at most as many rounds as there are notes and payments. -/
theorem Sound.run {start} (collisionFree : CollisionFree env coinsView setup start)
    (sound : Sound env coinsView base setup s) (history : History env jsInputs jsOutputs s)
    (reached : Reached env setup start s)
    : ∃ final, (∀ fuel, s.rank ≤ fuel → chainRounds env setup fuel s = .ok final)
      ∧ Sound env coinsView base setup final ∧ History env jsInputs jsOutputs final
      ∧ final.vpubNewProcessed = true := by
  induction rank : s.rank using Nat.strong_induction_on generalizing s with
  | _ n ih =>
    cases processed : s.vpubNewProcessed with
    | true =>
      refine ⟨s, ?_, sound, history, processed⟩
      intro fuel _
      cases fuel <;> simp [chainRounds, processed]
    | false =>
      obtain ⟨next, run, closer, soundNext, historyNext⟩ :=
        sound.step correct known history processed (collisionFree s reached)
      rw [rank] at closer
      obtain ⟨final, runs, results⟩ := ih next.rank closer soundNext historyNext
        (.round reached processed run) rfl
      refine ⟨final, ?_, results⟩
      intro fuel enough
      obtain ⟨fuel, rfl⟩ : ∃ more, fuel = more + 1 := ⟨fuel - 1, by omega⟩
      rw [chainRounds, if_neg (by rw [processed]; exact Bool.false_ne_true), run]
      exact runs fuel (by omega)

end

/-- The builder has notes of one tree of the view that cover what is to be paid, and the tree has
room for the commitments of the transaction.
-/
structure Ready (env : BuilderEnv) (coinsView : ShieldedState) (base : List Uint256)
    (builder : TransactionBuilder) : Prop where
  version : builder.mtx.fOverwintered = true ∧ builder.mtx.nVersion ≥ saplingTxVersion
  new : builder.mtx.vJoinSplit = []
  view : builder.coinsView = some coinsView
  anchored : ∃ tree, TreeOf env.crypto base tree
    ∧ coinsView.getAnchorAt (tree.root env.crypto.hash sproutTreeDepth) = some tree
  nonempty : builder.jsInputs ≠ []
  notes : ∀ input ∈ builder.jsInputs,
    NoteAmong env.crypto base input ∧ 0 < input.note.value.toNat
  outputs : ∀ output ∈ builder.jsOutputs, 0 < output.value.toNat
  covered : outputSum builder.jsOutputs ≤ noteSum builder.jsInputs
  range : (noteSum builder.jsInputs : Int) ≤ maxMoney.toInt
  room : base.length + 2 * (builder.jsInputs.length + builder.jsOutputs.length)
    ≤ 2 ^ sproutTreeDepth

variable {builder : TransactionBuilder} {first : JSInput}

section

variable (ready : Ready env coinsView base builder)
include ready

theorem Ready.target (first : JSInput)
    : (builder.chainSetup first).vpubOldTarget = 0
      ∧ (builder.chainSetup first).vpubNewTarget.toInt
        = (noteSum builder.jsInputs : Int) - outputSum builder.jsOutputs := by
  have covered := ready.covered
  have range := ready.range
  rw [maxMoney_toInt] at range
  refine (chainSetup_target rfl ⟨by omega, by omega⟩).resolve_right ?_
  omega

theorem Ready.setupOf
    : SetupOf env coinsView base (builder.chainSetup first) := by
  obtain ⟨old, new⟩ := ready.target first
  have covered := ready.covered
  exact ⟨ready.view, ready.anchored, old, by omega⟩

theorem Ready.sound
    : Sound env coinsView base (builder.chainSetup first) builder.chainStart := by
  have worth : Worth env _ _ := worth_start ready.nonempty (ready.target first).2
  refine ⟨ready.version, fun _ => rfl, ready.notes, ready.outputs, worth.kept, ?_, worth.worth,
    worth.going, nofun, ready.room, nofun⟩
  change (0 : Int) + noteSum builder.jsInputs ≤ _
  rw [zero_add]
  exact ready.range

theorem Ready.history
    : History env builder.jsInputs builder.jsOutputs builder.chainStart := by
  refine ⟨⟨ready.new, forall_mem_nil _, rfl, fun _ _ => Nat.zero_add _, forall_mem_nil _, .nil,
    ?_⟩, fun _ => rfl, ?_⟩
  · intro made isFirst
    cases isFirst
  · intro made isLast
    cases isLast

end

/-- The loop of a builder that is ready comes to its end. -/
theorem Ready.returns (correct : env.crypto.Correct) (ready : Ready env coinsView base builder)
    (collisionFree : ∀ first, builder.jsInputs.head? = some first
      → CollisionFree env coinsView (builder.chainSetup first) builder.chainStart)
    : ∃ final,
        (∀ fuel, builder.jsInputs.length + builder.jsOutputs.length ≤ fuel
          → builder.createJSDescriptions env fuel = .ok (final.mtx, final.log))
        ∧ History env builder.jsInputs builder.jsOutputs final
        ∧ final.jsInputsDeque = [] ∧ final.jsOutputsDeque = [] ∧ final.jsChange = 0 := by
  obtain ⟨first, rest, isInputs⟩ := exists_cons_of_ne_nil ready.nonempty
  have isFirst : builder.jsInputs.head? = some first := by rw [isInputs]; rfl
  obtain ⟨final, runs, sound, history, processed⟩ := ready.sound.run correct ready.setupOf
    (collisionFree first isFirst) ready.history .start
  obtain ⟨noneLeft, noChange⟩ := sound.done processed
  obtain ⟨noInputs, noOutputs⟩ := Nat.add_eq_zero_iff.mp noneLeft
  refine ⟨final, ?_, history, length_eq_zero_iff.mp noInputs,
    length_eq_zero_iff.mp noOutputs, noChange⟩
  intro fuel enough
  unfold TransactionBuilder.createJSDescriptions
  rw [isInputs]
  exact bind_ok.mpr ⟨final, runs fuel enough, rfl⟩

/-- For at least one note of positive value, witnessed in one tree of the view, and outputs of
positive value that the notes cover, with sums in range and a tree that has room for the
commitments, `CreateJSDescriptions` returns: its joinsplits are balanced, spend every note once, pay
every recipient what was asked for, have inputs with witnesses for their anchors, and leave no
change.
-/
theorem createJSDescriptions_delivers (correct : env.crypto.Correct)
    (ready : Ready env coinsView base builder)
    (collisionFree : ∀ first, builder.jsInputs.head? = some first
      → CollisionFree env coinsView (builder.chainSetup first) builder.chainStart)
    : ∃ mtx log,
        (∀ fuel, builder.jsInputs.length + builder.jsOutputs.length ≤ fuel
          → builder.createJSDescriptions env fuel = .ok (mtx, log))
        ∧ Delivers env.crypto builder.jsInputs builder.jsOutputs [] [] mtx.vJoinSplit log
        ∧ ∀ made, log.getLast? = some made → made.vjsout.2.value = 0 := by
  obtain ⟨final, runs, history, noInputs, noOutputs, noChange⟩ :=
    ready.returns correct collisionFree
  have delivers := history.delivers
  rw [noInputs, noOutputs] at delivers
  refine ⟨final.mtx, final.log, runs, delivers, ?_⟩
  intro made isLast
  have value := history.last made isLast
  rw [noChange, Int64.toInt_zero] at value
  rw [← UInt64.toNat_inj, UInt64.toNat_zero]
  omega

def sampleRandom (n : Nat) : JoinSplitRandom :=
  let byte (k : Nat) : Uint256 := uniform (UInt8.ofNat (16 * n + k))
  {
    dummyInputs := (⟨byte 1, byte 2, byte 3⟩, ⟨byte 4, byte 5, byte 6⟩)
    dummyOutputs := (byte 7, byte 8)
    genInputs := 0
    genOutputs := 0
    randomSeed := byte 9
    phi := byte 10
    r := (byte 11, byte 12)
    esk := byte 13
  }

/-- An environment in which everything succeeds. -/
def sampleEnv : BuilderEnv where
  crypto := plainCrypto
  sha256d := fun _ => .null
  random := sampleRandom
  joinSplitPubKey := uniform 9
  changeR := .null
  spendDescription := fun _ => .ok {}
  outputDescription := fun _ => .ok {}
  signatureHash := fun _ => .ok .null
  spendAuthSig := fun _ _ => zeroBytes 64
  bindingSig := fun _ _ => zeroBytes 64
  joinSplitSig := fun _ => .ok (zeroBytes 64)
  produceSignature := fun _ _ _ => some []

/-- A note of the key `uniform 7`. -/
def sampleNote (value : UInt64) : SproutNote := ⟨uniform 7, value, uniform 2, uniform 3⟩

def sampleTree (value : UInt64) : SproutMerkleTree :=
  { left := some (plainCrypto.cm (sampleNote value)) }

def sampleInput (tree : SproutMerkleTree) (value : UInt64) : JSInput :=
  ⟨tree.witness, sampleNote value, uniform 7⟩

def sampleView (tree : SproutMerkleTree) : ShieldedState :=
  let root := tree.root plainCrypto.hash sproutTreeDepth
  { nullifiers := ∅, anchors := AList.singleton root tree, hashAnchor := root }

def sampleOutput (value : UInt64) : JSOutput := ⟨⟨uniform 5, uniform 6⟩, value, .unset⟩

def sampleBuilder (version : Int32) (tree : SproutMerkleTree) (inputs outputs : List UInt64)
    : TransactionBuilder where
  nHeight := 1
  keystore := true
  sproutParams := true
  coinsView := some (sampleView tree)
  mtx := { fOverwintered := true, nVersion := version }
  jsInputs := inputs.map (sampleInput tree)
  jsOutputs := outputs.map sampleOutput

/-- The loop of a builder that makes two joinsplits comes through one treestate with change. -/
theorem collisionFree_two {start} (noChange : start.jsChange = 0)
    (once : (chainRound env setup start).toOption.map
      (fun s => s.treestate.intermediates.entries.isEmpty) = some true)
    (twice : (chainRound env setup start >>= chainRound env setup).toOption.map
      (fun s => (s.vpubNewProcessed, s.jsChange)) = some (true, 0))
    : CollisionFree env coinsView setup start := by
  have states : ∀ s, Reached env setup start s → s = start
      ∨ chainRound env setup start = .ok s
      ∨ chainRound env setup start >>= chainRound env setup = .ok s := by
    intro s reached
    induction reached with
    | start => exact .inl rfl
    | round _ going run ih =>
      rcases ih with rfl | first | second
      · exact .inr (.inl run)
      · exact .inr (.inr (bind_ok.mpr ⟨_, first, run⟩))
      · rw [second] at twice
        simp [Except.toOption, going] at twice
  intro s reached pos
  rcases states s reached with rfl | first | second
  · rw [noChange] at pos
    exact absurd pos (by decide)
  · rw [first] at once
    have nothing : s.treestate.intermediates = ∅ := by
      refine AList.ext ?_
      simpa [Except.toOption] using once
    intro next tree witness _
    rw [nothing]
    rfl
  · rw [second] at twice
    have zero : s.jsChange = 0 := by
      simp [Except.toOption] at twice
      exact twice.2
    rw [zero] at pos
    exact absurd pos (by decide)

theorem sample_ready
    : Ready sampleEnv (sampleView (sampleTree 10)) [plainCrypto.cm (sampleNote 10)]
        (sampleBuilder 4 (sampleTree 10) [10] [4, 3]) := by
  have treeOf : TreeOf plainCrypto [plainCrypto.cm (sampleNote 10)] (sampleTree 10) := rfl
  have among : NoteAmong plainCrypto ([] ++ [plainCrypto.cm (sampleNote 10)])
      (sampleInput (sampleTree 10) 10) :=
    ⟨rfl, 0, tracks_last treeOf, rfl⟩
  refine ⟨⟨rfl, by decide⟩, rfl, rfl, ⟨sampleTree 10, treeOf, by decide +kernel⟩, by decide, ?_,
    by decide, by decide, by decide, by decide⟩
  exact forall_mem_singleton.mpr ⟨among, by decide⟩

theorem sample_collisionFree (first : JSInput)
    (isFirst : (sampleBuilder 4 (sampleTree 10) [10] [4, 3]).jsInputs.head? = some first)
    : CollisionFree sampleEnv (sampleView (sampleTree 10))
        ((sampleBuilder 4 (sampleTree 10) [10] [4, 3]).chainSetup first)
        (sampleBuilder 4 (sampleTree 10) [10] [4, 3]).chainStart := by
  cases isFirst
  exact collisionFree_two rfl (by decide +kernel) (by decide +kernel)

/-- A note of 10 pays 4 and 3, in two joinsplits. -/
theorem createJSDescriptions_delivers_ten
    : let builder := sampleBuilder 4 (sampleTree 10) [10] [4, 3]
      ∃ mtx log,
        (∀ fuel, 3 ≤ fuel → builder.createJSDescriptions sampleEnv fuel = .ok (mtx, log))
        ∧ Delivers plainCrypto builder.jsInputs builder.jsOutputs [] [] mtx.vJoinSplit log
        ∧ ∀ made, log.getLast? = some made → made.vjsout.2.value = 0 :=
  createJSDescriptions_delivers plainCrypto_correct sample_ready sample_collisionFree

/-- What is asked of the notes and payments, without limits for the amounts and the tree. -/
structure Payable (env : BuilderEnv) (coinsView : ShieldedState) (builder : TransactionBuilder)
    : Prop where
  view : builder.coinsView = some coinsView
  nonempty : builder.jsInputs ≠ []
  notes : ∀ input ∈ builder.jsInputs, 0 < input.note.value.toNat
  anchored : ∃ tree, coinsView.getAnchorAt (tree.root env.crypto.hash sproutTreeDepth) = some tree
    ∧ ∀ input ∈ builder.jsInputs,
      Spendable env.crypto (tree.root env.crypto.hash sproutTreeDepth) input
  outputs : ∀ output ∈ builder.jsOutputs, 0 < output.value.toNat
  covered : outputSum builder.jsOutputs ≤ noteSum builder.jsInputs

/-- A tree without room, that ends in a note. -/
def fullTree (value : UInt64) : SproutMerkleTree where
  left := some .null
  right := some (plainCrypto.cm (sampleNote value))
  parents := List.replicate (sproutTreeDepth - 1) (some .null)

/-- The tree over two notes. -/
def pairTree (first second : UInt64) : SproutMerkleTree :=
  { sampleTree first with right := some (plainCrypto.cm (sampleNote second)) }

/-- A builder that spends both notes of a tree. -/
def pairBuilder (first second : UInt64) (outputs : List UInt64) : TransactionBuilder :=
  let earlier : SproutWitness :=
    { tree := sampleTree first, filled := [plainCrypto.cm (sampleNote second)] }
  let builder := sampleBuilder 4 (pairTree first second) [second] outputs
  { builder with jsInputs := ⟨earlier, sampleNote first, uniform 7⟩ :: builder.jsInputs }

/-- Notes that are worth more than there is money, a tree without room for the commitments and a
transaction from before Sapling each stop `CreateJSDescriptions`.
-/
theorem createJSDescriptions_limits
    : let rich := pairBuilder maxMoney.toUInt64 1 [5]
      let full := sampleBuilder 4 (fullTree 10) [10] [4, 3]
      let old := sampleBuilder 3 (sampleTree 10) [10] [4, 3]
      (Payable sampleEnv (sampleView (pairTree maxMoney.toUInt64 1)) rich
        ∧ rich.createJSDescriptions sampleEnv 9
          = .error (.invalidArgument "nonsensical left hand size of joinsplit balance"))
      ∧ (Payable sampleEnv (sampleView (fullTree 10)) full
        ∧ full.createJSDescriptions sampleEnv 9 = .error (.runtimeError "tree is full"))
      ∧ (Payable sampleEnv (sampleView (sampleTree 10)) old
        ∧ old.createJSDescriptions sampleEnv 9
          = .error (.assertion "mtx.fOverwintered && (mtx.nVersion >= SAPLING_TX_VERSION)")) := by
  refine ⟨⟨⟨rfl, by decide, by decide +kernel, ⟨pairTree maxMoney.toUInt64 1, by decide +kernel,
      ?_⟩, by decide, by decide +kernel⟩, eq_error_of_map (by decide +kernel)⟩,
    ⟨⟨rfl, by decide, by decide +kernel, ⟨fullTree 10, by decide +kernel, ?_⟩, by decide,
      by decide +kernel⟩, eq_error_of_map (by decide +kernel)⟩,
    ⟨⟨rfl, by decide, by decide +kernel, ⟨sampleTree 10, by decide +kernel, ?_⟩, by decide,
      by decide +kernel⟩, eq_error_of_map (by decide +kernel)⟩⟩
  · refine forall_mem_cons.mpr ⟨⟨?_, ?_, rfl⟩, forall_mem_singleton.mpr ⟨?_, ?_, rfl⟩⟩
    · exact fun _ => by decide +kernel
    · exact fun _ => rfl
    · exact fun _ => by decide +kernel
    · exact fun _ => rfl
  · exact forall_mem_singleton.mpr ⟨fun _ => by decide +kernel, fun _ => rfl, rfl⟩
  · exact forall_mem_singleton.mpr ⟨fun _ => by decide +kernel, fun _ => rfl, rfl⟩

/-! Payments to Sprout addresses that the notes do not cover. `vpub_old` of the first joinsplit is
set to the missing amount, but not counted among the inputs when change and dues are computed, so
that the joinsplit is not balanced.
-/

/-- No joinsplit of the chaining loop takes value from the public pool. -/
theorem Reached.vpubOld {start s} (reached : Reached env setup start s) (new : start.log = [])
    : ∀ made ∈ s.log, made.vpubOld.toNat = 0 := by
  induction reached with
  | start => simp [new]
  | round _ _ run ih =>
    obtain ⟨round, made, outputMap, makes, rfl⟩ := chainRound_makes run
    exact forall_mem_append.mpr ⟨ih, forall_mem_singleton.mpr makes.vpubOld_eq_zero⟩

/-- What is missing comes from the public pool: `CreateJSDescriptions` finishes, its joinsplits are
balanced, and the first one has the missing amount as its `vpub_old`.
-/
def FundsMissing (env : BuilderEnv) (builder : TransactionBuilder) : Prop :=
  ∃ mtx log, (∃ fuel, builder.createJSDescriptions env fuel = .ok (mtx, log))
    ∧ (∀ made ∈ log, valueIn made.vpubOld made.vjsin = valueOut made.vpubNew made.vjsout)
    ∧ ∃ first, log.head? = some first
      ∧ first.vpubOld.toNat = outputSum builder.jsOutputs - noteSum builder.jsInputs

theorem FundsMissing.covered (funds : FundsMissing env builder) (nonempty : builder.jsInputs ≠ [])
    : outputSum builder.jsOutputs ≤ noteSum builder.jsInputs := by
  obtain ⟨mtx, log, ⟨fuel, run⟩, -, made, isFirst, missing⟩ := funds
  obtain ⟨first, rest, isInputs⟩ := exists_cons_of_ne_nil nonempty
  obtain ⟨final, reached, -, -, rfl⟩ := createJSDescriptions_reached isInputs run
  have zero := reached.vpubOld rfl made (mem_of_head? isFirst)
  omega

/-- With at least one note, the missing amount is taken from the public pool only when nothing is
missing.
-/
theorem fundsMissing_iff (correct : env.crypto.Correct) (nonempty : builder.jsInputs ≠ [])
    (ready : outputSum builder.jsOutputs ≤ noteSum builder.jsInputs
      → Ready env coinsView base builder)
    (collisionFree : ∀ first, builder.jsInputs.head? = some first
      → CollisionFree env coinsView (builder.chainSetup first) builder.chainStart)
    : FundsMissing env builder
      ↔ outputSum builder.jsOutputs ≤ noteSum builder.jsInputs := by
  refine ⟨fun funds => funds.covered nonempty, ?_⟩
  intro covered
  obtain ⟨final, runs, history, noInputs, -, -⟩ := (ready covered).returns correct collisionFree
  have run := runs _ (le_refl _)
  obtain ⟨first, rest, isInputs⟩ := exists_cons_of_ne_nil nonempty
  obtain ⟨same, reached, -, -, isLog⟩ := createJSDescriptions_reached isInputs run
  have somethingMade : final.log ≠ [] := by
    intro nothing
    have consumed := history.delivers.consumed
    rw [nothing, noInputs, isInputs] at consumed
    cases consumed
  obtain ⟨made, log, isMade⟩ := exists_cons_of_ne_nil somethingMade
  refine ⟨final.mtx, final.log, ⟨_, run⟩, history.delivers.balanced, made, by rw [isMade]; rfl, ?_⟩
  have zero := reached.vpubOld rfl made (by rw [isLog, isMade]; exact mem_cons_self)
  omega

theorem fundsMissing_iff_ten
    : let builder := sampleBuilder 4 (sampleTree 10) [10] [4, 3]
      FundsMissing sampleEnv builder
        ↔ outputSum builder.jsOutputs ≤ noteSum builder.jsInputs :=
  fundsMissing_iff plainCrypto_correct (by decide) (fun _ => sample_ready) sample_collisionFree

/-- A note of 5 and the missing value of transparent inputs, which also pay the fee. -/
def publicBuilder (outputs : List UInt64) (tIn : CAmount) : TransactionBuilder :=
  { sampleBuilder 4 (sampleTree 5) [5] outputs with tIns := [⟨[], tIn⟩] }

/-- One payment of 10 fails the assertion of the last joinsplit; with a second payment the first
joinsplit is refused by the prover.
-/
theorem publicInput_unbalanced
    : (publicBuilder [10] 10005).change = 0
      ∧ (publicBuilder [10] 10005).createJSDescriptions sampleEnv 9
        = .error (.assertion "jsChange >= 0")
      ∧ ¬ FundsMissing sampleEnv (publicBuilder [10] 10005)
      ∧ (publicBuilder [10, 1] 10006).change = 0
      ∧ (publicBuilder [10, 1] 10006).createJSDescriptions sampleEnv 9
        = .error (.invalidArgument "invalid joinsplit balance")
      ∧ ¬ FundsMissing sampleEnv (publicBuilder [10, 1] 10006) := by
  refine ⟨by decide +kernel, eq_error_of_map (by decide +kernel), ?_, by decide +kernel,
    eq_error_of_map (by decide +kernel), ?_⟩
  · intro funds
    exact absurd (funds.covered (by decide)) (by decide)
  · intro funds
    exact absurd (funds.covered (by decide)) (by decide)

end Resistance.Builder

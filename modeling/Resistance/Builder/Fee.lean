import Resistance.Builder.Chaining

/-! What a built transaction leaves to the miner is the fee of the builder. The change is computed
over three value pools at once, and the joinsplits move to the public pool what their notes are
worth more than their outputs.
-/

namespace Resistance.Builder

open List Primitives Consensus Zcash Validation Coins Sprout Lib Lib.Checks MachineInt Int64
  TransactionBuilder

variable {env : BuilderEnv} {setup : ChainSetup} {builder next : TransactionBuilder}

/-- Nothing was built yet, and every transparent input has its value. -/
structure Unbuilt (builder : TransactionBuilder) : Prop where
  joinsplits : builder.mtx.vJoinSplit = []
  inputs : builder.mtx.vin.length = builder.tIns.length

theorem Unbuilt.new {expiryDeltaArg consensusParams nHeight keystore sproutParams coinsView}
    (run : new expiryDeltaArg consensusParams nHeight keystore sproutParams
      coinsView = .ok builder)
    : Unbuilt builder := by
  obtain ⟨mtx, created, isBuilder⟩ := bind_ok.mp run
  cases isBuilder
  unfold Mining.createNewContextualCMutableTransaction at created
  split at created
  · obtain ⟨_, _, isMtx⟩ := bind_ok.mp created
    cases isMtx
    exact ⟨rfl, rfl⟩
  · cases created
    exact ⟨rfl, rfl⟩

theorem Unbuilt.call {crypto call} (unbuilt : Unbuilt builder)
    (run : builder.call crypto call = .ok next)
    : Unbuilt next := by
  obtain ⟨joinsplits, inputs⟩ := unbuilt
  cases call with
  | addSaplingSpend | addSproutInput =>
    obtain ⟨_, _, more⟩ := bind_ok.mp run
    obtain ⟨_, _, isNext⟩ := bind_ok.mp more
    cases isNext
    exact ⟨joinsplits, inputs⟩
  | addTransparentInput =>
    obtain ⟨_, _, isNext⟩ := bind_ok.mp run
    cases isNext
    exact ⟨joinsplits, by simp [inputs]⟩
  | addSaplingOutput | addSproutOutput | addTransparentOutput | sendChangeToTransparent =>
    obtain ⟨_, _, isNext⟩ := bind_ok.mp run
    cases isNext
    exact ⟨joinsplits, inputs⟩
  | setFee | sendChangeToSapling | sendChangeToSprout =>
    cases run
    exact ⟨joinsplits, inputs⟩

def TransactionBuilder.tInSum (builder : TransactionBuilder) : Int :=
  (builder.tIns.map fun tIn => tIn.value.toInt).sum

def tOutSum (vout : List CTxOut) : Int := (vout.map fun tOut => tOut.nValue.toInt).sum

/-- What goes in and is neither paid to a recipient nor the fee. -/
def TransactionBuilder.surplus (builder : TransactionBuilder) : Int :=
  builder.mtx.valueBalance.toInt - builder.fee.toInt + noteSum builder.jsInputs
    - outputSum builder.jsOutputs + builder.tInSum - tOutSum builder.mtx.vout

/-- The amounts of the builder and their sums are amounts of money. -/
structure InRange (builder : TransactionBuilder) : Prop where
  valueBalance : -maxMoney.toInt ≤ builder.mtx.valueBalance.toInt
    ∧ builder.mtx.valueBalance.toInt ≤ maxMoney.toInt
  fee : Money builder.fee.toInt
  notes : (noteSum builder.jsInputs : Int) ≤ maxMoney.toInt
  outputs : (outputSum builder.jsOutputs : Int) ≤ maxMoney.toInt
  tIns : Money builder.tInSum
  vout : Money (tOutSum builder.mtx.vout)

theorem change_eq (builder : TransactionBuilder)
    : builder.change = ofInt builder.surplus := by
  have addsIn (a : CAmount) (tIn : TransparentInputInfo)
      : a + tIn.value = a + ofInt tIn.value.toInt := by
    rw [ofInt_toInt]
  have addsOut (a : CAmount) (tOut : CTxOut)
      : a - tOut.nValue = a + ofInt (-tOut.nValue.toInt) := by
    rw [ofInt_neg, ofInt_toInt, Int64.sub_eq_add_neg]
  have outputs : (builder.mtx.vout.map fun tOut => -tOut.nValue.toInt).sum
      = -tOutSum builder.mtx.vout := by
    unfold tOutSum
    induction builder.mtx.vout with
    | nil => rfl
    | cons tOut vout ih =>
      rw [map_cons, sum_cons, map_cons, sum_cons]
      omega
  have start : builder.mtx.valueBalance - builder.fee
      = ofInt (builder.mtx.valueBalance.toInt - builder.fee.toInt) := by
    rw [ofInt_sub, ofInt_toInt, ofInt_toInt]
  simp only [change]
  rw [foldl_inputs, foldl_outputs, foldl_ofInt addsIn, foldl_ofInt addsOut,
    outputs, start, ← ofInt_add, ← ofInt_add, ← ofInt_add, ← ofInt_add]
  rfl

theorem InRange.change (range : InRange builder) : builder.change.toInt = builder.surplus := by
  obtain ⟨⟨balanceLow, balanceHigh⟩, ⟨feeLow, feeHigh⟩, notes, outputs, ⟨insLow, insHigh⟩,
    ⟨outsLow, outsHigh⟩⟩ := range
  rw [maxMoney_toInt] at balanceLow balanceHigh feeHigh notes outputs insHigh outsHigh
  rw [change_eq]
  refine toInt_ofInt ⟨?_, ?_⟩
  · unfold surplus
    omega
  · unfold surplus
    omega

/-- There is change, and it goes to a Sprout address. -/
def SproutChange (builder : TransactionBuilder) : Prop :=
  0 < builder.surplus ∧ builder.saplingChangeAddr = none
    ∧ (builder.sproutChangeAddr ≠ none
      ∨ (builder.tChangeAddr = none ∧ builder.spends = [] ∧ builder.jsInputs ≠ []))

/-- The change goes to one of the three value pools. -/
theorem addChange_cases (pos : 0 < builder.surplus) (run : builder.addChange env = .ok next)
    : (SproutChange builder ∧ ∃ addr, builder.addSproutOutput addr builder.change = .ok next)
      ∨ (¬ SproutChange builder
        ∧ ((∃ ovk addr, builder.addSaplingOutput env.changeR ovk addr builder.change = .ok next)
          ∨ ∃ addr, builder.addTransparentOutput addr builder.change = .ok next)) := by
  unfold addChange at run
  split at run
  · exact .inr ⟨by simp [SproutChange, *], .inl ⟨_, _, mapError_ok.mp run⟩⟩
  · exact .inl ⟨by simp [SproutChange, *], _, mapError_ok.mp run⟩
  · exact .inr ⟨by simp [SproutChange, *], .inr ⟨_, mapError_ok.mp run⟩⟩
  · exact .inr ⟨by simp [SproutChange, *], .inl ⟨_, _, mapError_ok.mp run⟩⟩
  · exact .inl ⟨by simp [SproutChange, *], _, mapError_ok.mp run⟩
  · cases run

/-- The builder after the change was added. -/
structure ChangeSettled (builder next : TransactionBuilder) : Prop where
  surplus : next.surplus = 0
  fee : next.fee = builder.fee
  tIns : next.tIns = builder.tIns
  vin : next.mtx.vin = builder.mtx.vin
  vJoinSplit : next.mtx.vJoinSplit = builder.mtx.vJoinSplit
  jsInputs : next.jsInputs = builder.jsInputs
  coinsView : next.coinsView = builder.coinsView
  jsOutputs : (outputSum next.jsOutputs : Int) ≤ 4 * maxMoney.toInt

theorem settleChange_settled (range : InRange builder) (run : builder.settleChange env = .ok next)
    : ChangeSettled builder next := by
  obtain ⟨_, nonneg, more⟩ := bind_ok.mp run
  have exact := range.change
  rw [throwIf_ok, lt_iff_toInt_lt, toInt_zero] at nonneg
  obtain ⟨⟨balanceLow, balanceHigh⟩, ⟨feeLow, feeHigh⟩, notes, outputs, ⟨insLow, insHigh⟩,
    ⟨outsLow, outsHigh⟩⟩ := range
  have bound : (outputSum builder.jsOutputs : Int) + builder.surplus ≤ 4 * maxMoney.toInt := by
    unfold surplus
    omega
  have outputsFew : (outputSum builder.jsOutputs : Int) ≤ 4 * maxMoney.toInt := by omega
  split at more
  next pos =>
    rw [gt_zero_iff, exact] at pos
    rcases addChange_cases pos more with
      ⟨-, addr, added⟩ | ⟨-, ⟨ovk, addr, added⟩ | ⟨addr, added⟩⟩
    all_goals
      obtain ⟨_, _, ⟨⟩⟩ := bind_ok.mp added
      simp only [surplus, tInSum] at exact pos bound insLow insHigh
    · have value := toNat_toUInt64 (a := builder.change) (by omega)
      have more : (outputSum (builder.jsOutputs ++ [⟨addr, builder.change.toUInt64, .unset⟩]) : Int)
          = outputSum builder.jsOutputs + builder.change.toInt := by
        simp [outputSum, value]
      refine ⟨?_, rfl, rfl, rfl, rfl, rfl, rfl, ?_⟩
      · simp only [surplus, tInSum]
        omega
      · simp only [more]
        omega
    · have less : (builder.mtx.valueBalance - builder.change).toInt
          = builder.mtx.valueBalance.toInt - builder.change.toInt := by
        rw [maxMoney_toInt] at *
        exact toInt_sub ⟨by omega, by omega⟩
      refine ⟨?_, rfl, rfl, rfl, rfl, rfl, rfl, outputsFew⟩
      simp only [surplus, tInSum]
      omega
    · have more : tOutSum (builder.mtx.vout
          ++ [{ nValue := builder.change, scriptPubKey := getScriptForDestination addr }])
          = tOutSum builder.mtx.vout + builder.change.toInt := by
        simp [tOutSum]
      refine ⟨?_, rfl, rfl, rfl, rfl, rfl, rfl, outputsFew⟩
      simp only [surplus, tInSum]
      omega
  next notPositive =>
    rw [gt_zero_iff] at notPositive
    cases more
    exact ⟨by omega, rfl, rfl, rfl, rfl, rfl, rfl, outputsFew⟩

def vpubNewSum (vJoinSplit : List JSDescription) : Int :=
  (vJoinSplit.map fun jsdesc => jsdesc.vpubNew.toInt).sum

def vpubOldSum (vJoinSplit : List JSDescription) : Int :=
  (vJoinSplit.map fun jsdesc => jsdesc.vpubOld.toInt).sum

/-- Joinsplits were added to the transaction, which move the amount to the public pool. -/
structure Publishes (before after : CMutableTransaction) (amount : Int) : Prop where
  fields : after = { before with vJoinSplit := after.vJoinSplit }
  amount : vpubNewSum after.vJoinSplit - vpubOldSum after.vJoinSplit
    = vpubNewSum before.vJoinSplit - vpubOldSum before.vJoinSplit + amount

theorem Publishes.none (mtx : CMutableTransaction) : Publishes mtx mtx 0 := ⟨rfl, by omega⟩

theorem Publishes.append {before after amount} (publishes : Publishes before after amount)
    (jsdesc : JSDescription)
    : Publishes before { after with vJoinSplit := after.vJoinSplit ++ [jsdesc] }
        (amount + (jsdesc.vpubNew.toInt - jsdesc.vpubOld.toInt)) := by
  obtain ⟨fields, sums⟩ := publishes
  constructor
  · rw [fields]
  · simp only [vpubNewSum, vpubOldSum, map_append, sum_append, map_cons, map_nil, sum_cons] at *
    omega

theorem Publishes.trans {before middle after first second} (left : Publishes before middle first)
    (right : Publishes middle after second)
    : Publishes before after (first + second) := by
  constructor
  · rw [right.fields, left.fields]
  · rw [right.amount, left.amount]
    omega

variable {mtx : CMutableTransaction} {fuel : Nat}

/-- A joinsplit that only has outputs takes their value from the public pool. -/
theorem createJSDescription_outputs {vpubOld vjsout jsdesc outputMap}
    (run : createJSDescription env mtx vpubOld 0 (dummyInputs env mtx) vjsout
      = .ok (jsdesc, outputMap))
    : jsdesc.vpubNew.toInt - jsdesc.vpubOld.toInt
      = -((vjsout.1.value.toNat : Int) + vjsout.2.value.toNat) := by
  obtain ⟨provable, -, isOld, isNew⟩ := createJSDescription_returned run
  have range := provable.range
  have balanced := provable.balanced
  have noInputs : valueIn vpubOld (dummyInputs env mtx) = vpubOld.toNat := rfl
  rw [maxMoney_toUInt64] at range
  have old : vpubOld.toInt64.toInt = vpubOld.toNat := toInt_toInt64 (by omega)
  have new : (0 : UInt64).toInt64.toInt = 0 := rfl
  rw [isOld, isNew]
  unfold valueOut at balanced
  rw [UInt64.toNat_zero] at balanced
  omega

theorem createOutputsOnly_publishes {result outputs log log'}
    (run : createOutputsOnly env mtx outputs log = .ok (result, log'))
    : Publishes mtx result (-(outputSum outputs : Int)) := by
  fun_induction createOutputsOnly env mtx outputs log with
  | case1 mtx log =>
    cases run
    exact .none _
  | case2 mtx output log vjsout =>
    obtain ⟨⟨jsdesc, outputMap⟩, created, isResult⟩ := bind_ok.mp run
    cases isResult
    have moved := createJSDescription_outputs created
    have publishes := (Publishes.none mtx).append jsdesc
    rw [moved] at publishes
    have sum : 0 + -((output.value.toNat : Int) + (0 : Nat)) = -(outputSum [output] : Int) := by
      simp [outputSum]
    rw [← sum]
    exact publishes
  | case3 mtx first second rest log vpubOld vjsout ih =>
    obtain ⟨⟨jsdesc, outputMap⟩, created, more⟩ := bind_ok.mp run
    have moved := createJSDescription_outputs created
    have publishes := ((Publishes.none mtx).append jsdesc).trans (ih _ more)
    rw [moved] at publishes
    have sum : 0 + -((first.value.toNat : Int) + second.value.toNat) + -(outputSum rest : Int)
        = -(outputSum (first :: second :: rest) : Int) := by
      simp only [outputSum, map_cons, sum_cons]
      omega
    rw [← sum]
    exact publishes

/-- The chaining loop gives the target to the public pool in its last joinsplit. -/
theorem Reached.publishes {start s} (reached : Reached env setup start s)
    (going : start.vpubNewProcessed = false)
    : Publishes start.mtx s.mtx
        (if s.vpubNewProcessed then setup.vpubNewTarget.toInt else 0) := by
  induction reached with
  | start =>
    rw [going]
    exact .none start.mtx
  | @round s next _ notYet run ih =>
    obtain ⟨round, made, outputMap, makes, rfl⟩ := chainRound_makes run
    obtain ⟨-, -, isOld, isNew⟩ := createJSDescription_returned makes.created
    obtain ⟨-, settled, -⟩ := makes.settled
    have old : made.jsdesc.vpubOld.toInt = 0 := by
      have zero : made.vpubOld = 0 := by
        rw [← UInt64.toNat_inj]
        exact makes.vpubOld_eq_zero
      rw [isOld, zero]
      rfl
    have new : made.jsdesc.vpubNew.toInt
        = if round.last then setup.vpubNewTarget.toInt else 0 := by
      rw [isNew, makes.vpubNew, settled.published]
      split
      · rfl
      · rfl
    have publishes := ih.append made.jsdesc
    rw [notYet, old, new] at publishes
    simpa [Chaining.next] using publishes

section

variable (notes : (noteSum builder.jsInputs : Int) ≤ maxMoney.toInt)
include notes

section

variable (outputs : (outputSum builder.jsOutputs : Int) ≤ 4 * maxMoney.toInt)
include outputs

/-- The joinsplits move to the public pool what the notes are worth more than the outputs. -/
theorem createJSDescriptions_publishes {log}
    (run : builder.createJSDescriptions env fuel = .ok (mtx, log))
    : Publishes builder.mtx mtx
        ((noteSum builder.jsInputs : Int) - outputSum builder.jsOutputs) := by
  cases isInputs : builder.jsInputs with
  | nil =>
    unfold createJSDescriptions at run
    rw [isInputs] at run
    have publishes := createOutputsOnly_publishes run
    simpa using publishes
  | cons first rest =>
    obtain ⟨final, reached, processed, rfl, -⟩ := createJSDescriptions_reached isInputs run
    have publishes := reached.publishes rfl
    rw [maxMoney_toInt] at notes outputs
    have target := reached.target processed ⟨by omega, by omega⟩
    rw [processed, target] at publishes
    rw [← isInputs]
    exact publishes

theorem describeJoinSplits_publishes (run : builder.describeJoinSplits env fuel = .ok mtx)
    : Publishes builder.mtx mtx
        ((noteSum builder.jsInputs : Int) - outputSum builder.jsOutputs) := by
  unfold describeJoinSplits at run
  split at run
  · split at run
    next described =>
      cases run
      exact createJSDescriptions_publishes notes outputs described
    · cases run
    · cases run
  next nothing =>
    cases run
    obtain ⟨noInputs, noOutputs⟩ := not_or.mp nothing
    rw [not_not.mp noInputs, not_not.mp noOutputs]
    exact .none _

theorem describeShielded_publishes (new : builder.mtx.vJoinSplit = [])
    (run : builder.describeShielded env fuel = .ok mtx)
    : mtx.vin = builder.mtx.vin ∧ mtx.vout = builder.mtx.vout
      ∧ mtx.valueBalance = builder.mtx.valueBalance
      ∧ vpubNewSum mtx.vJoinSplit - vpubOldSum mtx.vJoinSplit
        = (noteSum builder.jsInputs : Int) - outputSum builder.jsOutputs := by
  obtain ⟨vShieldedSpend, _, more⟩ := bind_ok.mp run
  obtain ⟨vShieldedOutput, _, joinsplits⟩ := bind_ok.mp more
  have publishes : Publishes (builder.withDescriptions env vShieldedSpend vShieldedOutput).mtx mtx
      ((noteSum builder.jsInputs : Int) - outputSum builder.jsOutputs) :=
    describeJoinSplits_publishes notes outputs joinsplits
  have amount := publishes.amount
  rw [publishes.fields]
  refine ⟨rfl, rfl, rfl, ?_⟩
  change _ = vpubNewSum builder.mtx.vJoinSplit - vpubOldSum builder.mtx.vJoinSplit + _ at amount
  rw [new] at amount
  simpa [vpubNewSum, vpubOldSum] using amount

end

end

/-- What signing leaves as it was. -/
structure SignedFrom (mtx signed : CMutableTransaction) : Prop where
  vin : signed.vin.length = mtx.vin.length
  vout : signed.vout = mtx.vout
  valueBalance : signed.valueBalance = mtx.valueBalance
  vJoinSplit : signed.vJoinSplit = mtx.vJoinSplit

theorem signAll_signed {tx} (run : builder.signAll env mtx = .ok tx)
    : SignedFrom mtx tx.toCMutableTransaction := by
  simp only [TransactionBuilder.signAll, bind_ok] at run
  obtain ⟨_, _, _, _, _, _, signed, signing, copied⟩ := run
  rw [CTransaction.copy_fields (mapError_ok.mp copied)]
  refine And.left (foldlM_transfer (fun from' first => ⟨?_, first⟩) ?_ signing)
  · unfold signInput at first
    split at first
    · cases first
    · cases first
      exact ⟨by simpa using from'.vin, from'.vout, from'.valueBalance, from'.vJoinSplit⟩
  · exact ⟨rfl, rfl, rfl, rfl⟩

/-- The transaction leaves the fee to the miner. -/
def PaysFee (builder : TransactionBuilder) (tx : CTransaction) : Prop :=
  tx.vin.length = builder.tIns.length
  ∧ builder.tInSum + vpubNewSum tx.vJoinSplit + tx.valueBalance.toInt
    = tOutSum tx.vout + vpubOldSum tx.vJoinSplit + builder.fee.toInt

/-- For every builder that was given its inputs, outputs, change address and fee by calls of its
methods, with amounts in range: if `Build` returns a transaction, then that pays exactly the fee.
-/
theorem build_paysFee {expiryDeltaArg : Option UInt32} {consensusParams : Params} {nHeight : Int}
    {keystore sproutParams : Bool} {coinsView : Option ShieldedState}
    {start : TransactionBuilder} {calls : List TransactionBuilder.Call} {fuel : Nat}
    {tx : CTransaction}
    (created : TransactionBuilder.new expiryDeltaArg consensusParams nHeight keystore sproutParams
      coinsView = .ok start)
    (called : calls.foldlM (fun builder call => builder.call env.crypto call) start = .ok builder)
    (range : InRange builder) (built : builder.build env fuel = .ok tx)
    : PaysFee builder tx := by
  obtain ⟨unbuilt, -⟩ := foldlM_transfer (fun unbuilt first => ⟨Unbuilt.call unbuilt first, first⟩)
    (Unbuilt.new created) called
  obtain ⟨settledBuilder, settling, more⟩ := bind_ok.mp built
  obtain ⟨mtx, describing, signing⟩ := bind_ok.mp more
  have settled := settleChange_settled range settling
  have notes := range.notes
  rw [← settled.jsInputs] at notes
  obtain ⟨vin, vout, balance, net⟩ := describeShielded_publishes notes settled.jsOutputs
    (settled.vJoinSplit.trans unbuilt.joinsplits) describing
  have signed := signAll_signed signing
  constructor
  · rw [signed.vin, vin, settled.vin]
    exact unbuilt.inputs
  have nothingLeft := settled.surplus
  rw [surplus, settled.fee, tInSum, settled.tIns]
    at nothingLeft
  rw [signed.vJoinSplit, signed.valueBalance, signed.vout, vout, balance]
  unfold tInSum
  omega

/-- A builder for the block at height 1000000 of the main network. -/
def sampleStart : TransactionBuilder where
  nHeight := 1000000
  keystore := true
  sproutParams := true
  coinsView := some (sampleView (sampleTree 10))
  mtx := {
    fOverwintered := true, nVersion := saplingTxVersion, nVersionGroupId := saplingVersionGroupId
    nExpiryHeight := 1000020
  }

/-- A transparent input of 30000 and a note of 10 pay 4 to a Sprout address. -/
def sampleCalls : List TransactionBuilder.Call := [
  .addTransparentInput ⟨uniform 1, 0⟩ [] 30000,
  .addSproutInput (uniform 7) (sampleNote 10) (sampleTree 10).witness,
  .addSproutOutput ⟨uniform 5, uniform 6⟩ 4 .unset,
  .sendChangeToTransparent (.keyID (.replicate 20 0))]

def sampleCalled : TransactionBuilder :=
  { sampleStart with
    mtx.vin := [{ prevout := ⟨uniform 1, 0⟩ }]
    tIns := [⟨[], 30000⟩]
    jsInputs := [sampleInput (sampleTree 10) 10]
    jsOutputs := [sampleOutput 4]
    tChangeAddr := some (.keyID (.replicate 20 0)) }

theorem sampleCalled_inRange : InRange sampleCalled :=
  ⟨⟨by decide, by decide⟩, ⟨by decide, by decide⟩, by decide, by decide,
    ⟨by decide, by decide⟩, ⟨by decide, by decide⟩⟩

/-- The change of 20006 is transparent, and 6 of it come out of the joinsplit. -/
theorem build_paysFee_sample
    : ∃ tx, sampleCalled.build sampleEnv 2 = .ok tx ∧ PaysFee sampleCalled tx := by
  have created : new none Params.main 1000000 true true
      (some (sampleView (sampleTree 10))) = .ok sampleStart := by rfl
  have called : sampleCalls.foldlM (fun builder call => builder.call sampleEnv.crypto call)
      sampleStart = .ok sampleCalled := by rfl
  obtain ⟨tx, built⟩ : ∃ tx, sampleCalled.build sampleEnv 2 = .ok tx :=
    exists_of_isOk (by decide +kernel)
  exact ⟨tx, built, build_paysFee created called sampleCalled_inRange built⟩

end Resistance.Builder

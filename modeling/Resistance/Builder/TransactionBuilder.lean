import Resistance.Coins.Compressor
import Resistance.Mining.CreateNewBlock
import Resistance.Sprout.Treestate

/-! `TransactionBuilder`, from `transaction_builder.cpp`: inputs and outputs of the three value
pools are collected, and `Build` adds the change and makes the transaction.
-/

namespace Resistance.Builder

open Primitives Consensus Zcash Validation Coins Script Sprout Lib Lib.Checks

structure SaplingExpandedSpendingKey where
  ask : Uint256
  nsk : Uint256
  ovk : Uint256

structure SaplingPaymentAddress where
  d : List.Vector UInt8 11
  pkD : Uint256

structure SaplingNote where
  d : List.Vector UInt8 11
  pkD : Uint256
  value : UInt64
  r : Uint256

structure SpendDescriptionInfo where
  expsk : SaplingExpandedSpendingKey
  note : SaplingNote
  anchor : Uint256
  witness : IncrementalWitness Uint256

structure OutputDescriptionInfo where
  ovk : Uint256
  note : SaplingNote
  memo : Memo

structure TransparentInputInfo where
  scriptPubKey : CScript
  value : CAmount

/-- What the builder asks of code outside of the model, and what it draws at random. -/
structure BuilderEnv where
  crypto : SproutCrypto
  sha256d : Bytes → Uint256
  /-- For the joinsplit at each index of the transaction. -/
  random : Nat → JoinSplitRandom
  /-- The public key that `crypto_sign_keypair` makes. -/
  joinSplitPubKey : Uint256
  /-- The randomness of the note of the change output. -/
  changeR : Uint256
  /-- The description of a Sapling spend with its proof, or the error of the builder. -/
  spendDescription : SpendDescriptionInfo → Except String SpendDescription
  /-- The description of a Sapling output with its proof, or the error of the builder. -/
  outputDescription : OutputDescriptionInfo → Except String OutputDescription
  /-- `SignatureHash` of the whole transaction, or the text of its exception. -/
  signatureHash : CMutableTransaction → Except String Uint256
  spendAuthSig : SpendDescriptionInfo → (dataToBeSigned : Uint256) → List.Vector UInt8 64
  bindingSig : (valueBalance : CAmount) → (dataToBeSigned : Uint256) → List.Vector UInt8 64
  /-- The joinsplit signature, or the error of making or checking it. -/
  joinSplitSig : (dataToBeSigned : Uint256) → Except String (List.Vector UInt8 64)
  /-- `ProduceSignature`: the `scriptSig` of an input. -/
  produceSignature : CTransaction → (nIn : Nat) → TransparentInputInfo → Option CScript

/-- The null pointers that the constructor may be given are kept as absent values. -/
structure TransactionBuilder where
  nHeight : Int
  /-- Whether there is a `keystore`. -/
  keystore : Bool
  /-- Whether there are `sproutParams`. -/
  sproutParams : Bool
  /-- What `coinsView` says of the Sprout pool. -/
  coinsView : Option ShieldedState
  mtx : CMutableTransaction
  fee : CAmount := 10000
  spends : List SpendDescriptionInfo := []
  outputs : List OutputDescriptionInfo := []
  jsInputs : List JSInput := []
  jsOutputs : List JSOutput := []
  tIns : List TransparentInputInfo := []
  saplingChangeAddr : Option (Uint256 × SaplingPaymentAddress) := none
  sproutChangeAddr : Option SproutPaymentAddress := none
  tChangeAddr : Option CTxDestination := none

def rpcWalletError : Int := -4
def rpcInvalidAddressOrKey : Int := -5

def isValidDestination : CTxDestination → Bool
  | .noDestination => false
  | _ => true

def getScriptForDestination : CTxDestination → CScript
  | .noDestination => []
  | .keyID keyID => pushData [opDup, opHash160] keyID.toList ++ [opEqualverify, opChecksig]
  | .scriptID scriptID => payToScriptHash scriptID

namespace TransactionBuilder

/-- The constructor. -/
def new (expiryDeltaArg : Option UInt32) (consensusParams : Params) (nHeight : Int)
    (keystore sproutParams : Bool) (coinsView : Option ShieldedState)
    : Except Failure TransactionBuilder := do
  let mtx ← Mining.createNewContextualCMutableTransaction expiryDeltaArg consensusParams nHeight
  return { nHeight, keystore, sproutParams, coinsView, mtx }

variable (builder : TransactionBuilder)

def addSaplingSpend (expsk : SaplingExpandedSpendingKey) (note : SaplingNote) (anchor : Uint256)
    (witness : IncrementalWitness Uint256) : Except JoinSplitFailure TransactionBuilder := do
  throwIf (builder.mtx.nVersion < saplingTxVersion)
    (.runtimeError "TransactionBuilder cannot add Sapling spend to pre-Sapling transaction")
  -- Consistency check: all anchors must equal the first one
  throwIf (builder.spends.head?.any (fun spend => spend.anchor ≠ anchor))
    (.rpcError rpcWalletError "Anchor does not match previously-added Sapling spends.")
  return { builder with
    spends := builder.spends ++ [⟨expsk, note, anchor, witness⟩]
    mtx.valueBalance := builder.mtx.valueBalance + note.value.toInt64 }

/-- The randomness of the note is drawn in its constructor. -/
def addSaplingOutput (r : Uint256) (ovk : Uint256) (addr : SaplingPaymentAddress) (value : CAmount)
    (memo : Memo := .unset) : Except JoinSplitFailure TransactionBuilder := do
  throwIf (builder.mtx.nVersion < saplingTxVersion)
    (.runtimeError "TransactionBuilder cannot add Sapling output to pre-Sapling transaction")
  let note : SaplingNote := ⟨addr.d, addr.pkD, value.toUInt64, r⟩
  return { builder with
    outputs := builder.outputs ++ [⟨ovk, note, memo⟩]
    mtx.valueBalance := builder.mtx.valueBalance - value }

def addSproutInput (crypto : SproutCrypto) (sk : SproutSpendingKey) (note : SproutNote)
    (witness : SproutWitness) : Except JoinSplitFailure TransactionBuilder := do
  throwIf (builder.sproutParams = false)
    (.runtimeError "Cannot add Sprout inputs to a TransactionBuilder without Sprout params")
  let jsInput : JSInput := ⟨witness, note, sk⟩
  -- Consistency check: all anchors must equal the first one
  throwIf (builder.jsInputs.head?.any (fun first => first.root crypto ≠ jsInput.root crypto))
    (.rpcError rpcWalletError "Anchor does not match previously-added Sprout spends.")
  return { builder with jsInputs := builder.jsInputs ++ [jsInput] }

def addSproutOutput (addr : SproutPaymentAddress) (value : CAmount) (memo : Memo := .unset)
    : Except JoinSplitFailure TransactionBuilder := do
  throwIf (builder.sproutParams = false)
    (.runtimeError "Cannot add Sprout outputs to a TransactionBuilder without Sprout params")
  return { builder with jsOutputs := builder.jsOutputs ++ [⟨addr, value.toUInt64, memo⟩] }

def addTransparentInput (utxo : COutPoint) (scriptPubKey : CScript) (value : CAmount)
    : Except JoinSplitFailure TransactionBuilder := do
  throwIf (builder.keystore = false)
    (.runtimeError "Cannot add transparent inputs to a TransactionBuilder without a keystore")
  return { builder with
    mtx.vin := builder.mtx.vin ++ [{ prevout := utxo }]
    tIns := builder.tIns ++ [⟨scriptPubKey, value⟩] }

def addTransparentOutput (addr : CTxDestination) (value : CAmount)
    : Except JoinSplitFailure TransactionBuilder := do
  throwIf (isValidDestination addr = false)
    (.rpcError rpcInvalidAddressOrKey "Invalid output address, not a valid taddr.")
  return { builder with
    mtx.vout := builder.mtx.vout
      ++ [{ nValue := value, scriptPubKey := getScriptForDestination addr }] }

def setFee (fee : CAmount) : TransactionBuilder := { builder with fee }

def sendChangeToSapling (changeAddr : SaplingPaymentAddress) (ovk : Uint256)
    : TransactionBuilder :=
  { builder with
    saplingChangeAddr := some (ovk, changeAddr), sproutChangeAddr := none, tChangeAddr := none }

def sendChangeToSprout (changeAddr : SproutPaymentAddress) : TransactionBuilder :=
  { builder with
    sproutChangeAddr := some changeAddr, saplingChangeAddr := none, tChangeAddr := none }

def sendChangeToTransparent (changeAddr : CTxDestination)
    : Except JoinSplitFailure TransactionBuilder := do
  throwIf (isValidDestination changeAddr = false)
    (.rpcError rpcInvalidAddressOrKey "Invalid change address, not a valid taddr.")
  return { builder with
    tChangeAddr := some changeAddr, saplingChangeAddr := none, sproutChangeAddr := none }

/-- A call of one of the methods that come before `Build`. -/
inductive Call where
  | addSaplingSpend (expsk : SaplingExpandedSpendingKey) (note : SaplingNote) (anchor : Uint256)
      (witness : IncrementalWitness Uint256)
  | addSaplingOutput (r ovk : Uint256) (addr : SaplingPaymentAddress) (value : CAmount)
      (memo : Memo)
  | addSproutInput (sk : SproutSpendingKey) (note : SproutNote) (witness : SproutWitness)
  | addSproutOutput (addr : SproutPaymentAddress) (value : CAmount) (memo : Memo)
  | addTransparentInput (utxo : COutPoint) (scriptPubKey : CScript) (value : CAmount)
  | addTransparentOutput (addr : CTxDestination) (value : CAmount)
  | setFee (fee : CAmount)
  | sendChangeToSapling (changeAddr : SaplingPaymentAddress) (ovk : Uint256)
  | sendChangeToSprout (changeAddr : SproutPaymentAddress)
  | sendChangeToTransparent (changeAddr : CTxDestination)

def call (crypto : SproutCrypto) : Call → Except JoinSplitFailure TransactionBuilder
  | .addSaplingSpend expsk note anchor witness =>
    builder.addSaplingSpend expsk note anchor witness
  | .addSaplingOutput r ovk addr value memo => builder.addSaplingOutput r ovk addr value memo
  | .addSproutInput sk note witness => builder.addSproutInput crypto sk note witness
  | .addSproutOutput addr value memo => builder.addSproutOutput addr value memo
  | .addTransparentInput utxo scriptPubKey value =>
    builder.addTransparentInput utxo scriptPubKey value
  | .addTransparentOutput addr value => builder.addTransparentOutput addr value
  | .setFee fee => pure (builder.setFee fee)
  | .sendChangeToSapling changeAddr ovk => pure (builder.sendChangeToSapling changeAddr ovk)
  | .sendChangeToSprout changeAddr => pure (builder.sendChangeToSprout changeAddr)
  | .sendChangeToTransparent changeAddr => builder.sendChangeToTransparent changeAddr

end TransactionBuilder

/-- One call of `CreateJSDescription` with the description that it made. Of the inputs it is kept
whether they are the change of the joinsplit before, notes of the builder or dummies.
-/
structure JoinSplitMade where
  vpubOld : UInt64
  vpubNew : UInt64
  change : Option JSInput
  notes : List JSInput
  dummies : JSInput × JSInput
  vjsout : JSOutput × JSOutput
  jsdesc : JSDescription

/-- The inputs that are not dummies. -/
def JoinSplitMade.spent (made : JoinSplitMade) : List JSInput :=
  made.change.toList ++ made.notes

def JoinSplitMade.vjsin (made : JoinSplitMade) : JSInput × JSInput :=
  fillInputs made.dummies made.spent

variable (env : BuilderEnv)

/-- `CreateJSDescription`, with the `outputMap` that it sets. The anchor is the root of the first
input.
-/
def createJSDescription (mtx : CMutableTransaction) (vpubOld vpubNew : UInt64)
    (vjsin : JSInput × JSInput) (vjsout : JSOutput × JSOutput)
    : Except JoinSplitFailure (JSDescription × (Fin 2 × Fin 2)) := do
  throwIf (¬ (mtx.fOverwintered = true ∧ mtx.nVersion ≥ saplingTxVersion))
    (.assertion "mtx.fOverwintered && (mtx.nVersion >= SAPLING_TX_VERSION)")
  let (jsdesc, outputMap) ← randomized env.crypto (env.random mtx.vJoinSplit.length)
    mtx.joinSplitPubKey true (vjsin.1.root env.crypto) vjsin vjsout vpubOld vpubNew
  throwIf (env.crypto.verify jsdesc mtx.joinSplitPubKey = false)
    (.runtimeError "error verifying joinsplit")
  return (jsdesc, outputMap)

/-- The default entries of `vjsin`, for the next joinsplit of the transaction. -/
def dummyInputs (mtx : CMutableTransaction) : JSInput × JSInput :=
  let drawn := (env.random mtx.vJoinSplit.length).dummyInputs
  (.dummy env.crypto drawn.1, .dummy env.crypto drawn.2)

/-- The default entries of `vjsout`, for the next joinsplit of the transaction. -/
def dummyOutputs (mtx : CMutableTransaction) : JSOutput × JSOutput :=
  let keys := (env.random mtx.vJoinSplit.length).dummyOutputs
  (.dummy env.crypto keys.1, .dummy env.crypto keys.2)

/-- The joinsplits of a transaction without Sprout inputs, which have two outputs each. -/
def createOutputsOnly : CMutableTransaction → List JSOutput → List JoinSplitMade
    → Except JoinSplitFailure (CMutableTransaction × List JoinSplitMade)
  | mtx, [], log => pure (mtx, log)
  | mtx, [output], log => do
    let vjsout := (output, (dummyOutputs env mtx).2)
    let (jsdesc, _) ← createJSDescription env mtx output.value 0 (dummyInputs env mtx) vjsout
    return ({ mtx with vJoinSplit := mtx.vJoinSplit ++ [jsdesc] },
      log ++ [⟨output.value, 0, none, [], dummyInputs env mtx, vjsout, jsdesc⟩])
  | mtx, first :: second :: rest, log => do
    -- Funds are removed from the value pool and enter the private pool
    let vpubOld := first.value + second.value
    let vjsout := (first, second)
    let (jsdesc, _) ← createJSDescription env mtx vpubOld 0 (dummyInputs env mtx) vjsout
    createOutputsOnly { mtx with vJoinSplit := mtx.vJoinSplit ++ [jsdesc] } rest
      (log ++ [⟨vpubOld, 0, none, [], dummyInputs env mtx, vjsout, jsdesc⟩])

/-- The local variables of the chaining loop of `CreateJSDescriptions`. -/
structure Chaining where
  mtx : CMutableTransaction
  jsInputsDeque : List JSInput
  jsOutputsDeque : List JSOutput
  jsChange : CAmount := 0
  changeOutputIndex : Option (Fin 2) := none
  vpubOldProcessed : Bool := false
  vpubNewProcessed : Bool := false
  treestate : Treestate := {}
  log : List JoinSplitMade := []

/-- What the loop does not change. -/
structure ChainSetup where
  coinsView : Option ShieldedState
  changeKey : SproutSpendingKey
  vpubOldTarget : CAmount
  vpubNewTarget : CAmount

/-- The change as an input, the anchor of the joinsplit that spends it, and the treestate. -/
def consumeChange (setup : ChainSetup) (s : Chaining) (treestate : Treestate)
    : Except JoinSplitFailure (Option JSInput × Uint256 × Treestate) :=
  if s.jsChange > 0 then
    match setup.coinsView with
    | none => .error (.assertion "coinsView")
    | some coinsView => do
      let prevJoinSplit := s.mtx.vJoinSplit.getLastD {}
      let (treestate, tree, changeWitness) ← treestate.update env.crypto coinsView
        .jsDescException prevJoinSplit s.changeOutputIndex
      match changeWitness with
      | none => .error (.assertion "changeWitness.has_value()")
      | some changeWitness =>
        let plaintext ← decryptChange env.crypto
          (fun _ => .jsDescException "Error decrypting output note of previous JoinSplit")
          setup.changeKey s.mtx.joinSplitPubKey prevJoinSplit (s.changeOutputIndex.getD 0)
        let note := plaintext.note (env.crypto.address setup.changeKey)
        return (some ⟨changeWitness, note, setup.changeKey⟩,
          tree.root env.crypto.hash sproutTreeDepth, treestate)
  else pure (none, .null, treestate)

/-- Add the history of previous commitments to the witness of a note. -/
def consumeNote (change : Bool) (previousCommitments : List Uint256) (jsAnchor : Uint256)
    (jsInput : JSInput) : Except JoinSplitFailure JSInput :=
  if change then do
    let witness ← addHistory env.crypto jsInput.witness previousCommitments
    let jsInput := { jsInput with witness }
    throwIf (jsAnchor ≠ jsInput.root env.crypto)
      (.jsDescException "Witness for spendable note does not have same anchor as change input")
    return jsInput
  else pure jsInput

/-- Consume spendable non-change notes. When there is no change, nothing reads the `jsAnchor` that
the source sets here.
-/
def consumeNotes (change : Bool) (previousCommitments : List Uint256) (jsAnchor : Uint256)
    (jsInputsDeque : List JSInput) : Except JoinSplitFailure (List JSInput × List JSInput) := do
  let slots := if change then 1 else 2
  let notes ← (jsInputsDeque.take slots).mapM
    (consumeNote env change previousCommitments jsAnchor)
  return (notes, jsInputsDeque.drop slots)

/-- The sum of the values of the inputs that are not dummies. -/
def inputValue (inputs : List JSInput) : CAmount :=
  inputs.foldl (fun jsInputValue input => jsInputValue + input.note.value.toInt64) 0

/-- Create the outputs for the recipient and for any change. -/
def chainOutputs (setup : ChainSetup) (dummies : JSOutput × JSOutput) (recipient : JSOutput)
    (settlement : Settlement) : JSOutput × JSOutput :=
  ({ recipient with value := settlement.value.toUInt64 }, if settlement.jsChange > 0 then
      { addr := env.crypto.address setup.changeKey, value := settlement.jsChange.toUInt64 }
    else dummies.2)

/-- The position of the change among the outputs. -/
def findChange (outputMap : Fin 2 × Fin 2) : Option (Fin 2) :=
  if outputMap.2 = 1 then some 1 else if outputMap.1 = 1 then some 0 else none

/-- The values that one round divides, before its joinsplit is made. -/
structure Round where
  change : Option JSInput
  notes : List JSInput
  jsInputsDeque : List JSInput
  jsOutputsDeque : List JSOutput
  treestate : Treestate
  recipient : JSOutput
  last : Bool
  settlement : Settlement

/-- If there is no change, the chain has terminated so we can reset the tracked treestate. -/
def Chaining.resetTreestate (s : Chaining) : Treestate :=
  if s.jsChange = 0 ∧ s.mtx.vJoinSplit ≠ [] then {} else s.treestate

/-- The payment that the next round makes; a dummy, once all are made. -/
def Chaining.recipient (s : Chaining) : JSOutput :=
  s.jsOutputsDeque.headD (dummyOutputs env s.mtx).1

/-- What is still owed to a recipient after a round. -/
def owed (recipient : JSOutput) (settlement : Settlement) : List JSOutput :=
  settlement.due.toList.map fun due => { recipient with value := due.toUInt64 }

/-- The part of a round in which inputs and payments are chosen. -/
def planRound (setup : ChainSetup) (s : Chaining) : Except JoinSplitFailure Round := do
  let (change, jsAnchor, treestate) ← consumeChange env setup s s.resetTreestate
  let (notes, jsInputsDeque) ← consumeNotes env (s.jsChange > 0) treestate.previousCommitments
    jsAnchor s.jsInputsDeque
  let recipient := s.recipient env
  let jsOutputsDeque := s.jsOutputsDeque.tail
  let last := jsOutputsDeque.isEmpty && jsInputsDeque.isEmpty
  let settlement ← settle
    (.jsDescException s!"Insufficient funds for vpub_new {formatMoney setup.vpubNewTarget}") last
    (inputValue (change.toList ++ notes)) recipient.value.toInt64 setup.vpubNewTarget
  return {
    change, notes, jsInputsDeque, treestate, recipient, last, settlement
    jsOutputsDeque := owed recipient settlement ++ jsOutputsDeque
  }

/-- The loop after a round that has made a joinsplit. -/
def Chaining.next (s : Chaining) (round : Round) (made : JoinSplitMade)
    (outputMap : Fin 2 × Fin 2) : Chaining where
  mtx := { s.mtx with vJoinSplit := s.mtx.vJoinSplit ++ [made.jsdesc] }
  jsInputsDeque := round.jsInputsDeque
  jsOutputsDeque := round.jsOutputsDeque
  jsChange := round.settlement.jsChange
  changeOutputIndex :=
    if round.settlement.jsChange > 0 then findChange outputMap else s.changeOutputIndex
  vpubOldProcessed := true
  vpubNewProcessed := round.last
  treestate := round.treestate
  log := s.log ++ [made]

/-- One round of the chaining loop. -/
def chainRound (setup : ChainSetup) (s : Chaining) : Except JoinSplitFailure Chaining := do
  let round ← planRound env setup s
  -- Set vpub_old in the first joinsplit
  let vpubOld := if s.vpubOldProcessed then 0 else setup.vpubOldTarget.toUInt64
  let vpubNew := round.settlement.vpubNew.toUInt64
  let vjsin := fillInputs (dummyInputs env s.mtx) (round.change.toList ++ round.notes)
  let vjsout := chainOutputs env setup (dummyOutputs env s.mtx) round.recipient round.settlement
  let (jsdesc, outputMap) ← createJSDescription env s.mtx vpubOld vpubNew vjsin vjsout
  return s.next round
    ⟨vpubOld, vpubNew, round.change, round.notes, dummyInputs env s.mtx, vjsout, jsdesc⟩ outputMap

/-- The chaining loop, for at most `fuel` rounds. -/
def chainRounds (setup : ChainSetup) : (fuel : Nat) → Chaining
    → Except JoinSplitFailure Chaining
  | 0, s => if s.vpubNewProcessed then pure s else .error .unfinished
  | fuel + 1, s => if s.vpubNewProcessed then pure s else do
      let s ← chainRound env setup s
      chainRounds setup fuel s

/-- The value that the joinsplits give to the public pool, or take from it. -/
def jsValueOut (jsInputs : List JSInput) (jsOutputs : List JSOutput) : CAmount :=
  jsOutputs.foldl (fun valueOut jsOutput => valueOut - jsOutput.value.toInt64)
    (inputValue jsInputs)

namespace TransactionBuilder

variable (builder : TransactionBuilder)

/-- What the chaining loop starts with, if there is an input note. -/
def chainSetup (first : JSInput) : ChainSetup :=
  let valueOut := jsValueOut builder.jsInputs builder.jsOutputs
  {
    coinsView := builder.coinsView
    -- Use address of first input note as the temporary change address.
    changeKey := first.key
    vpubOldTarget := if valueOut < 0 then -valueOut else 0
    vpubNewTarget := if valueOut > 0 then valueOut else 0
  }

def chainStart : Chaining :=
  { mtx := builder.mtx, jsInputsDeque := builder.jsInputs, jsOutputsDeque := builder.jsOutputs }

/-- `CreateJSDescriptions`, with at most `fuel` rounds of the chaining loop. -/
def createJSDescriptions (fuel : Nat)
    : Except JoinSplitFailure (CMutableTransaction × List JoinSplitMade) :=
  match builder.jsInputs with
  | [] => createOutputsOnly env builder.mtx builder.jsOutputs []
  | first :: _ => do
    let final ← chainRounds env (builder.chainSetup first) fuel builder.chainStart
    return (final.mtx, final.log)

/-- `TransactionBuilderResult`, or an exception or failed assertion that leaves `Build`. -/
inductive BuildFailure where
  | result (error : String)
  | thrown (failure : JoinSplitFailure)
  deriving DecidableEq, Repr

/-- The change of the transaction. -/
def change : CAmount :=
  let change := builder.mtx.valueBalance - builder.fee
  let change := builder.jsInputs.foldl
    (fun change jsInput => change + jsInput.note.value.toInt64) change
  let change := builder.jsOutputs.foldl
    (fun change jsOutput => change - jsOutput.value.toInt64) change
  let change := builder.tIns.foldl (fun change tIn => change + tIn.value) change
  builder.mtx.vout.foldl (fun change tOut => change - tOut.nValue) change

/-- Send change to the specified change address. If no change address was set, send change to the
first Sapling address given as input if any; otherwise the first Sprout address given as input.
-/
def addChange : Except BuildFailure TransactionBuilder :=
  match builder.saplingChangeAddr, builder.sproutChangeAddr, builder.tChangeAddr,
      builder.spends, builder.jsInputs with
  | some (ovk, changeAddr), _, _, _, _ =>
    (builder.addSaplingOutput env.changeR ovk changeAddr builder.change).mapError .thrown
  | none, some changeAddr, _, _, _ =>
    (builder.addSproutOutput changeAddr builder.change).mapError .thrown
  | none, none, some changeAddr, _, _ =>
    (builder.addTransparentOutput changeAddr builder.change).mapError .thrown
  | none, none, none, spend :: _, _ =>
    (builder.addSaplingOutput env.changeR spend.expsk.ovk ⟨spend.note.d, spend.note.pkD⟩
      builder.change).mapError .thrown
  | none, none, none, [], jsInput :: _ =>
    (builder.addSproutOutput (env.crypto.address jsInput.key) builder.change).mapError .thrown
  | none, none, none, [], [] => .error (.result "Could not determine change address")

/-- The consistency check and the change output. -/
def settleChange : Except BuildFailure TransactionBuilder := do
  throwIf (builder.change < 0) (.result "Change cannot be negative")
  if builder.change > 0 then builder.addChange env else pure builder

/-- The joinsplits, if there is anything of the Sprout pool. -/
def describeJoinSplits (fuel : Nat) : Except BuildFailure CMutableTransaction :=
  if builder.jsInputs ≠ [] ∨ builder.jsOutputs ≠ [] then
    match builder.createJSDescriptions env fuel with
    | .ok (mtx, _) => pure mtx
    | .error (.jsDescException msg) => .error (.result msg)
    | .error failure => .error (.thrown failure)
  else pure builder.mtx

/-- The builder with the Sapling descriptions and the key for the joinsplits. -/
def withDescriptions (vShieldedSpend : List SpendDescription)
    (vShieldedOutput : List OutputDescription) : TransactionBuilder :=
  { builder with mtx := { builder.mtx with
    vShieldedSpend := builder.mtx.vShieldedSpend ++ vShieldedSpend
    vShieldedOutput := builder.mtx.vShieldedOutput ++ vShieldedOutput
    joinSplitPubKey := env.joinSplitPubKey } }

/-- The Sapling descriptions and the joinsplits. -/
def describeShielded (fuel : Nat) : Except BuildFailure CMutableTransaction := do
  let vShieldedSpend ← (builder.spends.mapM env.spendDescription).mapError .result
  let vShieldedOutput ← (builder.outputs.mapM env.outputDescription).mapError .result
  (builder.withDescriptions env vShieldedSpend vShieldedOutput).describeJoinSplits env fuel

/-- Sign one transparent input. -/
def signInput (txNewConst : CTransaction) (mtx : CMutableTransaction)
    (input : TransparentInputInfo × Nat) : Except BuildFailure CMutableTransaction :=
  match env.produceSignature txNewConst input.2 input.1 with
  | none => .error (.result "Failed to sign transaction")
  | some scriptSig =>
    pure { mtx with vin := mtx.vin.modify input.2 (fun txin => { txin with scriptSig }) }

/-- The signatures. -/
def signAll (mtx : CMutableTransaction) : Except BuildFailure CTransaction := do
  let dataToBeSigned ← (env.signatureHash mtx).mapError
    (fun what => .result ("Could not construct signature hash: " ++ what))
  let joinSplitSig ← (env.joinSplitSig dataToBeSigned).mapError .result
  let mtx := { mtx with
    vShieldedSpend := mtx.vShieldedSpend.zipWith (fun sdesc spend =>
      { sdesc with spendAuthSig := env.spendAuthSig spend dataToBeSigned }) builder.spends
    bindingSig := env.bindingSig mtx.valueBalance dataToBeSigned
    joinSplitSig }
  let txNewConst ← (CTransaction.copy env.sha256d mtx).mapError
    (fun what => .thrown (.runtimeError what))
  let mtx ← builder.tIns.zipIdx.foldlM (signInput env txNewConst) mtx
  (CTransaction.copy env.sha256d mtx).mapError (fun what => .thrown (.runtimeError what))

/-- `Build`, with at most `fuel` rounds of the chaining loop. -/
def build (fuel : Nat) : Except BuildFailure CTransaction := do
  let builder ← builder.settleChange env
  let mtx ← builder.describeShielded env fuel
  builder.signAll env mtx

end TransactionBuilder

end Resistance.Builder

import Resistance.Validation.Environment

/-! Joinsplits, from `zcash/JoinSplit.cpp` and `primitives/transaction.cpp`: the notes that go in
and come out, the dummies that fill up the two slots of each side, and the checks that the prover
makes before it proves anything.
-/

namespace Resistance.Sprout

open Primitives Consensus Zcash Validation Lib.Checks

abbrev SproutMerkleTree := IncrementalMerkleTree Uint256

abbrev SproutWitness := IncrementalWitness Uint256

-- A `uint252`: the four bits that its constructor wants to be zero are not looked at here.
abbrev SproutSpendingKey := Uint256

structure SproutPaymentAddress where
  aPk : Uint256
  pkEnc : Uint256
  deriving DecidableEq

structure SproutNote where
  aPk : Uint256
  value : UInt64
  rho : Uint256
  r : Uint256
  deriving DecidableEq

-- `std::array<unsigned char, ZC_MEMO_SIZE>`.
abbrev Memo := List.Vector UInt8 512

/-- The default `{{0xF6}}`, which says that there is no memo. -/
def Memo.unset : Memo := List.Vector.cons 0xF6 (zeroBytes 511)

structure SproutNotePlaintext where
  value : UInt64
  memo : Memo
  rho : Uint256
  r : Uint256
  deriving DecidableEq

/-- The constructor from a note. -/
def SproutNotePlaintext.ofNote (note : SproutNote) (memo : Memo) : SproutNotePlaintext where
  value := note.value
  memo := memo
  rho := note.rho
  r := note.r

def SproutNotePlaintext.note (plaintext : SproutNotePlaintext) (addr : SproutPaymentAddress)
    : SproutNote where
  aPk := addr.aPk
  value := plaintext.value
  rho := plaintext.rho
  r := plaintext.r

structure JSInput where
  witness : SproutWitness
  note : SproutNote
  key : SproutSpendingKey
  deriving DecidableEq

structure JSOutput where
  addr : SproutPaymentAddress
  value : UInt64
  memo : Memo := .unset
  deriving DecidableEq

/-- How the code around joinsplits stops. -/
inductive JoinSplitFailure where
  /-- A `std::invalid_argument`, of the prover. -/
  | invalidArgument (what : String)
  /-- A `std::runtime_error`. -/
  | runtimeError (what : String)
  /-- A `JSDescException`, of the transaction builder. -/
  | jsDescException (msg : String)
  /-- A `JSONRPCError`, of the wallet's operations. -/
  | rpcError (code : Int) (message : String)
  /-- A failed `assert` ends the process. -/
  | assertion (expression : String)
  /-- The rounds that a loop may take in the model are used up. -/
  | unfinished
  deriving DecidableEq, Repr

/-- What the code around joinsplits asks of code outside of the model. -/
structure SproutCrypto where
  /-- `SHA256Compress`, of the note commitment tree. -/
  hash : MerkleHash Uint256
  /-- `SproutSpendingKey::address`. -/
  address : SproutSpendingKey → SproutPaymentAddress
  /-- `SproutNote::cm`. -/
  cm : SproutNote → Uint256
  prfNf : SproutSpendingKey → (rho : Uint256) → Uint256
  prfRho : (phi : Uint256) → Nat → (hSig : Uint256) → Uint256
  prfPk : SproutSpendingKey → Nat → (hSig : Uint256) → Uint256
  hSig : (randomSeed : Uint256) → (nullifiers : List.Vector Uint256 2)
    → (joinSplitPubKey : Uint256) → Uint256
  /-- The ephemeral key of a `ZCNoteEncryption`, for the secret that it has drawn. -/
  epk : (esk : Uint256) → Uint256
  /-- `SproutNotePlaintext::encrypt`, the `nonce`-th call on one encryptor. -/
  encrypt : (hSig esk : Uint256) → (nonce : Nat) → SproutNotePlaintext → (pkEnc : Uint256)
    → List.Vector UInt8 601
  /-- `SproutNotePlaintext::decrypt` with the receiving key of a spending key. -/
  decrypt : SproutSpendingKey → List.Vector UInt8 601 → (ephemeralKey hSig : Uint256)
    → (nonce : Nat) → Except String SproutNotePlaintext
  /-- `librustzcash_sprout_prove`. -/
  sproutProve : (phi rt hSig : Uint256) → JSInput × MerklePath → JSInput × MerklePath
    → SproutNote × SproutNote → (vpubOld vpubNew : UInt64) → GrothProof
  /-- `JSDescription::Verify` with the strict verifier. -/
  verify : JSDescription → (joinSplitPubKey : Uint256) → Bool

/-- What is drawn at random for one dummy input. -/
structure DummyNote where
  key : SproutSpendingKey
  rho : Uint256
  r : Uint256

/-- What is drawn at random for one joinsplit. -/
structure JoinSplitRandom where
  /-- For the default entries of `vjsin`. -/
  dummyInputs : DummyNote × DummyNote
  /-- The spending keys of the addresses of dummy outputs. -/
  dummyOutputs : SproutSpendingKey × SproutSpendingKey
  /-- `gen(2)`, for the order of the inputs and for that of the outputs. -/
  genInputs : Fin 2
  genOutputs : Fin 2
  randomSeed : Uint256
  phi : Uint256
  r : Uint256 × Uint256
  esk : Uint256

variable (crypto : SproutCrypto)

/-- `JSInput::JSInput()`: a note without value, the only leaf of a tree of its own. -/
def JSInput.dummy (drawn : DummyNote) : JSInput :=
  let note := ⟨(crypto.address drawn.key).aPk, 0, drawn.rho, drawn.r⟩
  -- Appending the first leaf to an empty tree.
  let dummyTree : SproutMerkleTree := { left := some (crypto.cm note) }
  { witness := dummyTree.witness, note, key := drawn.key }

/-- `JSOutput::JSOutput()`. -/
def JSOutput.dummy (key : SproutSpendingKey) : JSOutput where
  addr := crypto.address key
  value := 0

def JSInput.root (input : JSInput) : Uint256 :=
  input.witness.root crypto.hash sproutTreeDepth

def JSInput.nullifier (input : JSInput) : Uint256 :=
  crypto.prfNf input.key input.note.rho

def JSOutput.note (output : JSOutput) (phi r : Uint256) (i : Nat) (hSig : Uint256)
    : SproutNote where
  aPk := output.addr.aPk
  value := output.value
  rho := crypto.prfRho phi i hSig
  r := r

/-- The tree must witness the correct element. -/
def checkElement (input : JSInput) : Except JoinSplitFailure Unit := do
  let element ← input.witness.element.mapError .runtimeError
  throwIf (crypto.cm input.note ≠ element)
    (.invalidArgument "witness of wrong element for joinsplit input")

/-- What is checked only of notes that have a value. -/
def checkValued (rt : Uint256) (input : JSInput) : Except JoinSplitFailure Unit :=
  if input.note.value ≠ 0 then do
    throwIf (input.root crypto ≠ rt)
      (.invalidArgument "joinsplit not anchored to the correct root")
    checkElement crypto input
  else pure ()

/-- Sanity checks of an input; its value is added to the left hand side. -/
def checkInput (rt : Uint256) (lhsValue : UInt64) (input : JSInput)
    : Except JoinSplitFailure UInt64 := do
  checkValued crypto rt input
  throwIf (input.note.aPk ≠ (crypto.address input.key).aPk)
    (.invalidArgument "input note not authorized to spend with given key")
  throwIf (input.note.value > maxMoney.toUInt64) (.invalidArgument "nonsensical input note value")
  throwIf (lhsValue + input.note.value > maxMoney.toUInt64)
    (.invalidArgument "nonsensical left hand size of joinsplit balance")
  return lhsValue + input.note.value

/-- Sanity checks of an output; its value is added to the right hand side. -/
def checkOutput (rhsValue : UInt64) (output : JSOutput) : Except JoinSplitFailure UInt64 := do
  throwIf (output.value > maxMoney.toUInt64) (.invalidArgument "nonsensical output value")
  throwIf (rhsValue + output.value > maxMoney.toUInt64)
    (.invalidArgument "nonsensical right hand side of joinsplit balance")
  return rhsValue + output.value

variable (random : JoinSplitRandom) (joinSplitPubKey : Uint256) (computeProof : Bool)
  (rt : Uint256) (inputs : JSInput × JSInput) (outputs : JSOutput × JSOutput)
  (vpubOld vpubNew : UInt64)

def jsNullifiers : List.Vector Uint256 2 :=
  ⟨[inputs.1.nullifier crypto, inputs.2.nullifier crypto], rfl⟩

def jsHSig : Uint256 :=
  crypto.hSig random.randomSeed (jsNullifiers crypto inputs) joinSplitPubKey

/-- The notes of the outputs. -/
def jsNotes : SproutNote × SproutNote :=
  let hSig := jsHSig crypto random joinSplitPubKey inputs
  (outputs.1.note crypto random.phi random.r.1 0 hSig,
    outputs.2.note crypto random.phi random.r.2 1 hSig)

/-- The ciphertext of the `i`-th output note. -/
def jsCiphertext (i : Nat) (note : SproutNote) (output : JSOutput) : List.Vector UInt8 601 :=
  crypto.encrypt (jsHSig crypto random joinSplitPubKey inputs) random.esk i
    (.ofNote note output.memo) output.addr.pkEnc

def jsProof : Except JoinSplitFailure GrothProof :=
  if !computeProof then pure (zeroBytes 192)
  else do
    let auth1 ← (inputs.1.witness.path crypto.hash sproutTreeDepth).mapError .runtimeError
    let auth2 ← (inputs.2.witness.path crypto.hash sproutTreeDepth).mapError .runtimeError
    return crypto.sproutProve random.phi rt (jsHSig crypto random joinSplitPubKey inputs)
      (inputs.1, auth1) (inputs.2, auth2)
      (jsNotes crypto random joinSplitPubKey inputs outputs) vpubOld vpubNew

/-- The description that the constructor of `JSDescription` fills in. -/
def describe (proof : GrothProof) : JSDescription :=
  let hSig := jsHSig crypto random joinSplitPubKey inputs
  let notes := jsNotes crypto random joinSplitPubKey inputs outputs
  {
    vpubOld := vpubOld.toInt64
    vpubNew := vpubNew.toInt64
    anchor := rt
    nullifiers := jsNullifiers crypto inputs
    commitments := ⟨[crypto.cm notes.1, crypto.cm notes.2], rfl⟩
    ephemeralKey := crypto.epk random.esk
    ciphertexts := ⟨[jsCiphertext crypto random joinSplitPubKey inputs 0 notes.1 outputs.1,
      jsCiphertext crypto random joinSplitPubKey inputs 1 notes.2 outputs.2], rfl⟩
    randomSeed := random.randomSeed
    macs := ⟨[crypto.prfPk inputs.1.key 0 hSig, crypto.prfPk inputs.2.key 1 hSig], rfl⟩
    proof := .groth proof
  }

/-- `JoinSplitCircuit::prove`, called by the constructor of `JSDescription`. -/
def prove : Except JoinSplitFailure JSDescription := do
  throwIf (vpubOld > maxMoney.toUInt64) (.invalidArgument "nonsensical vpub_old value")
  throwIf (vpubNew > maxMoney.toUInt64) (.invalidArgument "nonsensical vpub_new value")
  let lhsValue ← checkInput crypto rt vpubOld inputs.1
  let lhsValue ← checkInput crypto rt lhsValue inputs.2
  let rhsValue ← checkOutput vpubNew outputs.1
  let rhsValue ← checkOutput rhsValue outputs.2
  throwIf (lhsValue ≠ rhsValue) (.invalidArgument "invalid joinsplit balance")
  let proof ← jsProof crypto random joinSplitPubKey computeProof rt inputs outputs vpubOld vpubNew
  return describe crypto random joinSplitPubKey rt inputs outputs vpubOld vpubNew proof

/-- `JSDescription::h_sig`. -/
def descriptionHSig (jsdesc : JSDescription) : Uint256 :=
  crypto.hSig jsdesc.randomSeed jsdesc.nullifiers joinSplitPubKey

instance neZeroTwo : NeZero 2 := ⟨by decide⟩

/-- `MappedShuffle` of two elements, for the number that `gen(2)` gives. -/
def mappedShuffle {α : Type} (r : Fin 2) (elements : α × α) : α × α :=
  if r = 0 then (elements.2, elements.1) else elements

/-- `JSDescription::Randomized`, with the `outputMap` that it sets. -/
def randomized : Except JoinSplitFailure (JSDescription × (Fin 2 × Fin 2)) := do
  let jsdesc ← prove crypto random joinSplitPubKey computeProof rt
    (mappedShuffle random.genInputs inputs) (mappedShuffle random.genOutputs outputs)
    vpubOld vpubNew
  return (jsdesc, mappedShuffle random.genOutputs (0, 1))

end Resistance.Sprout

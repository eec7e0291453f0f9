import Resistance.Primitives.RoundTrip

/-! `SignatureHash` of `script/interpreter.cpp`: the digest of a transaction that a signature
covers. Overwinter and Sapling digests nest personalised BLAKE2b hashes; with `SIGHASH_ALL`
they commit to everything but the signatures.
-/

namespace Resistance.Script

open Primitives Lib.Codec Lib.Checks

/-- `NOT_AN_INPUT`, the index of a signature that is not for a transparent input. -/
def notAnInput : UInt32 := 0xFFFFFFFF

def sighashAll : Int32 := 1
def sighashNone : Int32 := 2
def sighashSingle : Int32 := 3
def sighashAnyoneCanPay : Int32 := 0x80

def fHashAnyoneCanPay (nHashType : Int32) : Bool := nHashType &&& sighashAnyoneCanPay != 0
def fHashSingle (nHashType : Int32) : Bool := nHashType &&& 0x1f == sighashSingle
def fHashNone (nHashType : Int32) : Bool := nHashType &&& 0x1f == sighashNone

inductive SigVersion where
  | sprout
  | overwinter
  | sapling
  deriving DecidableEq

def signatureHashVersion (txTo : CTransaction) : SigVersion :=
  if txTo.fOverwintered then
    if txTo.nVersionGroupId = saplingVersionGroupId then .sapling else .overwinter
  else .sprout

/-- `CTransactionSignatureSerializer::SerializeInput`. -/
def serializeInput (txTo : CTransaction) (scriptCode : CScript) (nIn : UInt32)
    (nHashType : Int32) (nInput : Nat)
    : Except String Bytes :=
  -- In case of SIGHASH_ANYONECANPAY, only the input being signed is serialized
  let nInput := if fHashAnyoneCanPay nHashType then nIn.toNat else nInput
  match txTo.vin[nInput]? with
  | none => .error "vin[nInput] is out of range"
  | some txin =>
    if nInput = notAnInput.toNat then .error "assert(nInput != NOT_AN_INPUT)"
    else
      let script := if nInput ≠ nIn.toNat then [] else scriptCode
      let nSequence :=
        if nInput ≠ nIn.toNat ∧ (fHashSingle nHashType ∨ fHashNone nHashType) then 0
        else txin.nSequence
      .ok (txin.prevout.serialize ++ (CScript.serialize script ++ serWritedata32 nSequence))

/-- `CTransactionSignatureSerializer::SerializeOutput`. -/
def serializeOutput (nIn : UInt32) (nHashType : Int32) (nOutput : Nat) (txout : CTxOut)
    : Bytes :=
  if fHashSingle nHashType ∧ nOutput ≠ nIn.toNat then CTxOut.serialize {}
  else txout.serialize

/-- `CTransactionSignatureSerializer::Serialize`; the stream has version 0. -/
def serializeForSignature (txTo : CTransaction) (scriptCode : CScript) (nIn : UInt32)
    (nHashType : Int32)
    : Except String Bytes := do
  let nInputs := if fHashAnyoneCanPay nHashType then 1 else txTo.vin.length
  let inputs ← (List.range nInputs).mapM (serializeInput txTo scriptCode nIn nHashType)
  let nOutputs :=
    if fHashNone nHashType then 0
    else if fHashSingle nHashType then nIn.toNat + 1
    else txTo.vout.length
  let outputs := (txTo.vout.take nOutputs).mapIdx (serializeOutput nIn nHashType)
  let joinsplits ←
    if txTo.nVersion ≥ 2 then do
      let joinsplits ← txTo.vJoinSplit.mapM (JSDescription.serialize 0)
      pure (serializeVector id joinsplits
        ++ (if txTo.vJoinSplit.length > 0 then
              serializeBytes txTo.joinSplitPubKey ++ serializeBytes (zeroBytes 64)
            else []))
    else pure []
  return serWritedata32 txTo.nVersion.toUInt32
    ++ (serializeVector id inputs
    ++ (serializeVector id outputs
    ++ (serWritedata32 txTo.nLockTime
    ++ joinsplits)))

-- The personalisations are character arrays in the source.
def characters (text : List Char) : Bytes := text.map fun c => UInt8.ofNat c.toNat

def zcashPrevoutsHashPersonalization : Bytes :=
  characters ['Z','c','a','s','h','P','r','e','v','o','u','t','H','a','s','h']
def zcashSequenceHashPersonalization : Bytes :=
  characters ['Z','c','a','s','h','S','e','q','u','e','n','c','H','a','s','h']
def zcashOutputsHashPersonalization : Bytes :=
  characters ['Z','c','a','s','h','O','u','t','p','u','t','s','H','a','s','h']
def zcashJoinSplitsHashPersonalization : Bytes :=
  characters ['Z','c','a','s','h','J','S','p','l','i','t','s','H','a','s','h']
def zcashShieldedSpendsHashPersonalization : Bytes :=
  characters ['Z','c','a','s','h','S','S','p','e','n','d','s','H','a','s','h']
def zcashShieldedOutputsHashPersonalization : Bytes :=
  characters ['Z','c','a','s','h','S','O','u','t','p','u','t','H','a','s','h']

/-- The personalisation of the outer hash ends with the branch id. -/
def sigHashPersonalization (consensusBranchId : UInt32) : Bytes :=
  characters ['Z','c','a','s','h','S','i','g','H','a','s','h']
    ++ serWritedata32 consensusBranchId

def prevoutsMessage (txTo : CTransaction) : Bytes :=
  txTo.vin.flatMap fun txin => txin.prevout.serialize

def sequencesMessage (txTo : CTransaction) : Bytes :=
  txTo.vin.flatMap fun txin => serWritedata32 txin.nSequence

def outputsMessage (txTo : CTransaction) : Bytes :=
  txTo.vout.flatMap CTxOut.serialize

-- The stream's version is the header, which selects the kind of the proofs.
def joinSplitsMessage (txTo : CTransaction) : Except String Bytes := do
  let joinsplits ← txTo.vJoinSplit.mapM (JSDescription.serialize txTo.getHeader.toInt32)
  return joinsplits.flatten ++ serializeBytes txTo.joinSplitPubKey

-- All fields of a spend but its signature.
def shieldedSpendMessage (spend : SpendDescription) : Bytes :=
  serializeBytes spend.cv
  ++ (serializeBytes spend.anchor
  ++ (serializeBytes spend.nullifier
  ++ (serializeBytes spend.rk
  ++ serializeBytes spend.zkproof)))

def shieldedSpendsMessage (txTo : CTransaction) : Bytes :=
  txTo.vShieldedSpend.flatMap shieldedSpendMessage

def shieldedOutputsMessage (txTo : CTransaction) : Bytes :=
  txTo.vShieldedOutput.flatMap OutputDescription.serialize

-- `CBLAKE2bWriter` takes the personalisation, `CHashWriter` is the double SHA-256.
variable (blake2b : Bytes → Bytes → Uint256) (hash : Bytes → Uint256)

def getPrevoutHash (txTo : CTransaction) : Uint256 :=
  blake2b zcashPrevoutsHashPersonalization (prevoutsMessage txTo)

def getSequenceHash (txTo : CTransaction) : Uint256 :=
  blake2b zcashSequenceHashPersonalization (sequencesMessage txTo)

def getOutputsHash (txTo : CTransaction) : Uint256 :=
  blake2b zcashOutputsHashPersonalization (outputsMessage txTo)

def getJoinSplitsHash (txTo : CTransaction) : Except String Uint256 := do
  let message ← joinSplitsMessage txTo
  return blake2b zcashJoinSplitsHashPersonalization message

def getShieldedSpendsHash (txTo : CTransaction) : Uint256 :=
  blake2b zcashShieldedSpendsHashPersonalization (shieldedSpendsMessage txTo)

def getShieldedOutputsHash (txTo : CTransaction) : Uint256 :=
  blake2b zcashShieldedOutputsHashPersonalization (shieldedOutputsMessage txTo)

structure PrecomputedTransactionData where
  hashPrevouts : Uint256
  hashSequence : Uint256
  hashOutputs : Uint256
  hashJoinSplits : Uint256
  hashShieldedSpends : Uint256
  hashShieldedOutputs : Uint256
  deriving DecidableEq

/-- The constructor of `PrecomputedTransactionData`. -/
def PrecomputedTransactionData.ofTransaction (txTo : CTransaction)
    : Except String PrecomputedTransactionData := do
  let hashJoinSplits ← getJoinSplitsHash blake2b txTo
  return {
    hashPrevouts := getPrevoutHash blake2b txTo
    hashSequence := getSequenceHash blake2b txTo
    hashOutputs := getOutputsHash blake2b txTo
    hashJoinSplits
    hashShieldedSpends := getShieldedSpendsHash blake2b txTo
    hashShieldedOutputs := getShieldedOutputsHash blake2b txTo
  }

/-- The arguments of `SignatureHash`, the hash type apart. -/
structure SignatureCall where
  scriptCode : CScript
  txTo : CTransaction
  nIn : UInt32
  amount : CAmount
  consensusBranchId : UInt32
  cache : Option PrecomputedTransactionData := none

namespace SignatureCall

variable (call : SignatureCall)

/-- `cache ? cache->field : compute`. -/
def cached (field : PrecomputedTransactionData → Uint256) (compute : Uint256) : Uint256 :=
  match call.cache with
  | some data => field data
  | none => compute

def hashPrevouts (nHashType : Int32) : Uint256 :=
  if !fHashAnyoneCanPay nHashType then
    call.cached (·.hashPrevouts) (getPrevoutHash blake2b call.txTo)
  else .null

def hashSequence (nHashType : Int32) : Uint256 :=
  if !fHashAnyoneCanPay nHashType && !fHashSingle nHashType && !fHashNone nHashType then
    call.cached (·.hashSequence) (getSequenceHash blake2b call.txTo)
  else .null

def hashOutputs (nHashType : Int32) : Uint256 :=
  if !fHashSingle nHashType && !fHashNone nHashType then
    call.cached (·.hashOutputs) (getOutputsHash blake2b call.txTo)
  else if fHashSingle nHashType then
    match call.txTo.vout[call.nIn.toNat]? with
    | some txout => blake2b zcashOutputsHashPersonalization txout.serialize
    | none => .null
  else .null

def hashJoinSplits : Except String Uint256 :=
  if !call.txTo.vJoinSplit.isEmpty then
    match call.cache with
    | some data => .ok data.hashJoinSplits
    | none => getJoinSplitsHash blake2b call.txTo
  else .ok .null

def hashShieldedSpends : Uint256 :=
  if !call.txTo.vShieldedSpend.isEmpty then
    call.cached (·.hashShieldedSpends) (getShieldedSpendsHash blake2b call.txTo)
  else .null

def hashShieldedOutputs : Uint256 :=
  if !call.txTo.vShieldedOutput.isEmpty then
    call.cached (·.hashShieldedOutputs) (getShieldedOutputsHash blake2b call.txTo)
  else .null

/-- The input being signed, for a transparent signature. -/
def inputMessage : Bytes :=
  if call.nIn = notAnInput then []
  else match call.txTo.vin[call.nIn.toNat]? with
    | some txin =>
      txin.prevout.serialize
      ++ (CScript.serialize call.scriptCode
      ++ (serializeInt64 call.amount
      ++ serWritedata32 txin.nSequence))
    -- The index has been checked.
    | none => []

/-- What the outer hash of an Overwinter or Sapling transaction is of. -/
def message (nHashType : Int32) : Except String Bytes := do
  let hashJoinSplits ← call.hashJoinSplits blake2b
  let sapling := signatureHashVersion call.txTo = .sapling
  return serWritedata32 call.txTo.getHeader
    ++ (serWritedata32 call.txTo.nVersionGroupId
    ++ (serializeBytes (call.hashPrevouts blake2b nHashType)
    ++ (serializeBytes (call.hashSequence blake2b nHashType)
    ++ (serializeBytes (call.hashOutputs blake2b nHashType)
    ++ (serializeBytes hashJoinSplits
    ++ ((if sapling then
          serializeBytes (call.hashShieldedSpends blake2b)
          ++ serializeBytes (call.hashShieldedOutputs blake2b)
        else [])
    ++ (serWritedata32 call.txTo.nLockTime
    ++ (serWritedata32 call.txTo.nExpiryHeight
    ++ ((if sapling then serializeInt64 call.txTo.valueBalance else [])
    ++ (serWritedata32 nHashType.toUInt32
    ++ call.inputMessage))))))))))

/-- `SignatureHash`. -/
def signatureHash (nHashType : Int32) : Except String Uint256 :=
  if call.nIn.toNat ≥ call.txTo.vin.length ∧ call.nIn ≠ notAnInput then
    .error "input index is out of range"
  else match signatureHashVersion call.txTo with
    | .overwinter | .sapling => do
      let message ← call.message blake2b nHashType
      return blake2b (sigHashPersonalization call.consensusBranchId) message
    | .sprout =>
      if fHashSingle nHashType ∧ call.nIn.toNat ≥ call.txTo.vout.length then
        .error "no matching output for SIGHASH_SINGLE"
      else do
        let txTmp ← serializeForSignature call.txTo call.scriptCode call.nIn nHashType
        return hash (txTmp ++ serWritedata32 nHashType.toUInt32)

end SignatureCall

end Resistance.Script

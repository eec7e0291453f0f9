import Mathlib.Algebra.GroupWithZero.Nat
import Resistance.Primitives.Transaction

/-! `SerializationOp` of the parts of a transaction and of the transaction itself, in the
direction that writes and in the direction that reads.
-/

namespace Resistance.Primitives

open Lib.Codec

-- Byte arrays: `base_blob` and `std::array<unsigned char, n>`.
def serializeBytes {n : Nat} (item : List.Vector UInt8 n) : Bytes :=
  serializeArray serWritedata8 item

def unserializeBytes (n : Nat) : Reader String (List.Vector UInt8 n) :=
  unserializeArray serReaddata8 n

/-- The leading byte of a compressed point, then its coordinate. The two groups differ in
the mask, the coordinate's size and the message.
-/
def serializePoint {n : Nat} (mask : UInt8) (y : Bool) (x : List.Vector UInt8 n) : Bytes :=
  serWritedata8 (if y then mask ||| 1 else mask) ++ serializeBytes x

def unserializePoint (mask : UInt8) (unrecognized : String) (n : Nat)
    : Reader String (Bool × List.Vector UInt8 n) := do
  let leadingByte ← serReaddata8
  if leadingByte &&& ~~~1 ≠ mask then .fail unrecognized
  else do
    let x ← unserializeBytes n
    pure (leadingByte &&& 1 != 0, x)

def g1PrefixMask : UInt8 := 0x02
def g2PrefixMask : UInt8 := 0x0a

def CompressedG1.serialize (point : CompressedG1) : Bytes :=
  serializePoint g1PrefixMask point.yLsb point.x

def CompressedG1.unserialize : Reader String CompressedG1 := do
  let point ← unserializePoint g1PrefixMask "lead byte of G1 point not recognized" 32
  pure { yLsb := point.1, x := point.2 }

def CompressedG2.serialize (point : CompressedG2) : Bytes :=
  serializePoint g2PrefixMask point.yGt point.x

def CompressedG2.unserialize : Reader String CompressedG2 := do
  let point ← unserializePoint g2PrefixMask "lead byte of G2 point not recognized" 64
  pure { yGt := point.1, x := point.2 }

def PHGRProof.serialize (proof : PHGRProof) : Bytes :=
  proof.gA.serialize
  ++ (proof.gAPrime.serialize
  ++ (proof.gB.serialize
  ++ (proof.gBPrime.serialize
  ++ (proof.gC.serialize
  ++ (proof.gCPrime.serialize
  ++ (proof.gK.serialize
  ++ proof.gH.serialize))))))

def PHGRProof.unserialize : Reader String PHGRProof := do
  let gA ← CompressedG1.unserialize
  let gAPrime ← CompressedG1.unserialize
  let gB ← CompressedG2.unserialize
  let gBPrime ← CompressedG1.unserialize
  let gC ← CompressedG1.unserialize
  let gCPrime ← CompressedG1.unserialize
  let gK ← CompressedG1.unserialize
  let gH ← CompressedG1.unserialize
  pure { gA, gAPrime, gB, gBPrime, gC, gCPrime, gK, gH }

/-- `SproutProofSerializer`: the proof's kind must be the one the format uses. -/
def SproutProof.serialize (useGroth : Bool) : SproutProof → Except String Bytes
  | .phgr proof =>
    if useGroth then
      .error ("Invalid Sprout proof for transaction format "
        ++ "(expected GrothProof, found PHGRProof)")
    else .ok proof.serialize
  | .groth proof =>
    if !useGroth then
      .error ("Invalid Sprout proof for transaction format "
        ++ "(expected PHGRProof, found GrothProof)")
    else .ok (serializeBytes proof)

def SproutProof.unserialize (useGroth : Bool) : Reader String SproutProof :=
  if useGroth then do
    let proof ← unserializeBytes 192
    pure (.groth proof)
  else do
    let proof ← PHGRProof.unserialize
    pure (.phgr proof)

def SpendDescription.serialize (spend : SpendDescription) : Bytes :=
  serializeBytes spend.cv
  ++ (serializeBytes spend.anchor
  ++ (serializeBytes spend.nullifier
  ++ (serializeBytes spend.rk
  ++ (serializeBytes spend.zkproof
  ++ serializeBytes spend.spendAuthSig))))

def SpendDescription.unserialize : Reader String SpendDescription := do
  let cv ← unserializeBytes 32
  let anchor ← unserializeBytes 32
  let nullifier ← unserializeBytes 32
  let rk ← unserializeBytes 32
  let zkproof ← unserializeBytes 192
  let spendAuthSig ← unserializeBytes 64
  pure { cv, anchor, nullifier, rk, zkproof, spendAuthSig }

def OutputDescription.serialize (output : OutputDescription) : Bytes :=
  serializeBytes output.cv
  ++ (serializeBytes output.cm
  ++ (serializeBytes output.ephemeralKey
  ++ (serializeBytes output.encCiphertext
  ++ (serializeBytes output.outCiphertext
  ++ serializeBytes output.zkproof))))

def OutputDescription.unserialize : Reader String OutputDescription := do
  let cv ← unserializeBytes 32
  let cm ← unserializeBytes 32
  let ephemeralKey ← unserializeBytes 32
  let encCiphertext ← unserializeBytes 580
  let outCiphertext ← unserializeBytes 80
  let zkproof ← unserializeBytes 192
  pure { cv, cm, ephemeralKey, encCiphertext, outCiphertext, zkproof }

/-- The kind of Sprout proof, from the version of the stream. -/
def JSDescription.useGroth (version : Int32) : Bool :=
  let fOverwintered := version >>> 31 != 0
  let txVersion := version &&& 0x7FFFFFFF
  fOverwintered && txVersion ≥ saplingTxVersion

/-- What is written of a JoinSplit once its proof is. -/
def JSDescription.serializeWith (proof : Bytes) (joinsplit : JSDescription) : Bytes :=
  serializeInt64 joinsplit.vpubOld
  ++ (serializeInt64 joinsplit.vpubNew
  ++ (serializeBytes joinsplit.anchor
  ++ (serializeArray serializeBytes joinsplit.nullifiers
  ++ (serializeArray serializeBytes joinsplit.commitments
  ++ (serializeBytes joinsplit.ephemeralKey
  ++ (serializeBytes joinsplit.randomSeed
  ++ (serializeArray serializeBytes joinsplit.macs
  ++ (proof
  ++ serializeArray serializeBytes joinsplit.ciphertexts))))))))

def JSDescription.serialize (version : Int32) (joinsplit : JSDescription)
    : Except String Bytes := do
  let proof ← joinsplit.proof.serialize (useGroth version)
  return joinsplit.serializeWith proof

def JSDescription.unserialize (version : Int32) : Reader String JSDescription := do
  let vpubOld ← unserializeInt64
  let vpubNew ← unserializeInt64
  let anchor ← unserializeBytes 32
  let nullifiers ← unserializeArray (unserializeBytes 32) 2
  let commitments ← unserializeArray (unserializeBytes 32) 2
  let ephemeralKey ← unserializeBytes 32
  let randomSeed ← unserializeBytes 32
  let macs ← unserializeArray (unserializeBytes 32) 2
  let proof ← SproutProof.unserialize (useGroth version)
  let ciphertexts ← unserializeArray (unserializeBytes 601) 2
  pure {
    vpubOld, vpubNew, anchor, nullifiers, commitments, ephemeralKey, ciphertexts,
    randomSeed, macs, proof
  }

def COutPoint.serialize (prevout : COutPoint) : Bytes :=
  serializeBytes prevout.hash ++ serWritedata32 prevout.n

def COutPoint.unserialize : Reader String COutPoint := do
  let hash ← unserializeBytes 32
  let n ← serReaddata32
  pure { hash, n }

def CScript.serialize (script : CScript) : Bytes :=
  serializeVector serWritedata8 script

def CScript.unserialize : Reader String CScript :=
  unserializeVector serReaddata8

def CTxIn.serialize (txin : CTxIn) : Bytes :=
  txin.prevout.serialize ++ (CScript.serialize txin.scriptSig ++ serWritedata32 txin.nSequence)

def CTxIn.unserialize : Reader String CTxIn := do
  let prevout ← COutPoint.unserialize
  let scriptSig ← CScript.unserialize
  let nSequence ← serReaddata32
  pure { prevout, scriptSig, nSequence }

def CTxOut.serialize (txout : CTxOut) : Bytes :=
  serializeInt64 txout.nValue ++ CScript.serialize txout.scriptPubKey

def CTxOut.unserialize : Reader String CTxOut := do
  let nValue ← unserializeInt64
  let scriptPubKey ← CScript.unserialize
  pure { nValue, scriptPubKey }

namespace CMutableTransaction

def getHeader (tx : CMutableTransaction) : UInt32 :=
  -- When serializing v1 and v2, the 4 byte header is nVersion
  let header := tx.nVersion.toUInt32
  if tx.fOverwintered then header ||| ((1 : UInt32) <<< 31) else header

def isOverwinterV3 (tx : CMutableTransaction) : Bool :=
  tx.fOverwintered && tx.nVersionGroupId == overwinterVersionGroupId
    && tx.nVersion == overwinterTxVersion

def isSaplingV4 (tx : CMutableTransaction) : Bool :=
  tx.fOverwintered && tx.nVersionGroupId == saplingVersionGroupId
    && tx.nVersion == saplingTxVersion

def hasBindingSig (tx : CMutableTransaction) : Bool :=
  tx.isSaplingV4 && !(tx.vShieldedSpend.isEmpty && tx.vShieldedOutput.isEmpty)

def serializeVersion (tx : CMutableTransaction) : Bytes :=
  if tx.fOverwintered then serWritedata32 tx.nVersionGroupId else []

def serializeTransparent (tx : CMutableTransaction) : Bytes :=
  serializeVector CTxIn.serialize tx.vin
  ++ (serializeVector CTxOut.serialize tx.vout
  ++ serWritedata32 tx.nLockTime)

def serializeExpiryHeight (tx : CMutableTransaction) : Bytes :=
  if tx.isOverwinterV3 || tx.isSaplingV4 then serWritedata32 tx.nExpiryHeight else []

def serializeShielded (tx : CMutableTransaction) : Bytes :=
  if tx.isSaplingV4 then
    serializeInt64 tx.valueBalance
    ++ (serializeVector SpendDescription.serialize tx.vShieldedSpend
    ++ serializeVector OutputDescription.serialize tx.vShieldedOutput)
  else []

-- `WithVersion(&s, header)`: the stream's version selects the proofs of the JoinSplits.
def serializeJoinSplits (tx : CMutableTransaction) : Except String Bytes :=
  if tx.nVersion ≥ 2 then do
    let joinsplits ← tx.vJoinSplit.mapM (JSDescription.serialize tx.getHeader.toInt32)
    return serializeVector id joinsplits
      ++ (if tx.vJoinSplit.length > 0 then
            serializeBytes tx.joinSplitPubKey ++ serializeBytes tx.joinSplitSig
          else [])
  else return []

def serializeBindingSig (tx : CMutableTransaction) : Bytes :=
  if tx.hasBindingSig then serializeBytes tx.bindingSig else []

/-- `SerializationOp` with `CSerActionSerialize`. -/
def serialize (tx : CMutableTransaction) : Except String Bytes :=
  if tx.fOverwintered && !(tx.isOverwinterV3 || tx.isSaplingV4) then
    .error "Unknown transaction format"
  else do
    let joinsplits ← tx.serializeJoinSplits
    return serWritedata32 tx.getHeader
      ++ (tx.serializeVersion
      ++ (tx.serializeTransparent
      ++ (tx.serializeExpiryHeight
      ++ (tx.serializeShielded
      ++ (joinsplits
      ++ tx.serializeBindingSig)))))

def unserializeVersion (header : UInt32) (tx : CMutableTransaction)
    : Reader String CMutableTransaction :=
  -- When deserializing, unpack the 4 byte header to extract fOverwintered and nVersion.
  let tx := {
    tx with
    fOverwintered := header >>> 31 != 0
    nVersion := (header &&& 0x7FFFFFFF).toInt32
  }
  if tx.fOverwintered then do
    let nVersionGroupId ← serReaddata32
    pure { tx with nVersionGroupId }
  else pure tx

def unserializeTransparent (tx : CMutableTransaction)
    : Reader String CMutableTransaction := do
  let vin ← unserializeVector CTxIn.unserialize
  let vout ← unserializeVector CTxOut.unserialize
  let nLockTime ← serReaddata32
  pure { tx with vin, vout, nLockTime }

def unserializeExpiryHeight (tx : CMutableTransaction)
    : Reader String CMutableTransaction :=
  if tx.isOverwinterV3 || tx.isSaplingV4 then do
    let nExpiryHeight ← serReaddata32
    pure { tx with nExpiryHeight }
  else pure tx

def unserializeShielded (tx : CMutableTransaction) : Reader String CMutableTransaction :=
  if tx.isSaplingV4 then do
    let valueBalance ← unserializeInt64
    let vShieldedSpend ← unserializeVector SpendDescription.unserialize
    let vShieldedOutput ← unserializeVector OutputDescription.unserialize
    pure { tx with valueBalance, vShieldedSpend, vShieldedOutput }
  else pure tx

def unserializeJoinSplits (header : UInt32) (tx : CMutableTransaction)
    : Reader String CMutableTransaction :=
  if tx.nVersion ≥ 2 then do
    let vJoinSplit ← unserializeVector (JSDescription.unserialize header.toInt32)
    if vJoinSplit.length > 0 then do
      let joinSplitPubKey ← unserializeBytes 32
      let joinSplitSig ← unserializeBytes 64
      pure { tx with vJoinSplit, joinSplitPubKey, joinSplitSig }
    else pure { tx with vJoinSplit }
  else pure tx

def unserializeBindingSig (tx : CMutableTransaction)
    : Reader String CMutableTransaction :=
  if tx.hasBindingSig then do
    let bindingSig ← unserializeBytes 64
    pure { tx with bindingSig }
  else pure tx

/-- `SerializationOp` with `CSerActionUnserialize`, on the object `tx`. -/
def unserialize (tx : CMutableTransaction) : Reader String CMutableTransaction := do
  let header ← serReaddata32
  let tx ← tx.unserializeVersion header
  if tx.fOverwintered && !(tx.isOverwinterV3 || tx.isSaplingV4) then
    .fail "Unknown transaction format"
  else do
    let tx ← tx.unserializeTransparent
    let tx ← tx.unserializeExpiryHeight
    let tx ← tx.unserializeShielded
    let tx ← tx.unserializeJoinSplits header
    tx.unserializeBindingSig

end CMutableTransaction

/-! Blocks, from `primitives/block.h` and `primitives/block.cpp`. The double SHA-256 that
`SerializeHash` and `Hash` compute is a parameter.
-/

/-- `CBlockHeaderUncached`; the cached proof-of-work hash of `CBlockHeader` is left out. -/
structure CBlockHeader where
  nVersion : Int32 := 4
  hashPrevBlock : Uint256 := .null
  hashMerkleRoot : Uint256 := .null
  hashFinalSaplingRoot : Uint256 := .null
  nTime : UInt32 := 0
  nBits : UInt32 := 0
  nNonce : Uint256 := .null
  deriving DecidableEq

structure CBlock extends CBlockHeader where
  vtx : List CTransaction := []
  deriving DecidableEq

def CBlockHeader.serialize (header : CBlockHeader) : Bytes :=
  serWritedata32 header.nVersion.toUInt32
  ++ (header.hashPrevBlock.toList
  ++ (header.hashMerkleRoot.toList
  ++ (header.hashFinalSaplingRoot.toList
  ++ (serWritedata32 header.nTime
  ++ (serWritedata32 header.nBits
  ++ header.nNonce.toList)))))

def CBlockHeader.getHash (hash : Bytes → Uint256) (header : CBlockHeader) : Uint256 :=
  hash header.serialize

def CBlockHeader.getBlockTime (header : CBlockHeader) : Int := header.nTime.toNat

def CTransaction.getSerializeSize (tx : CTransaction) : Except String Nat := do
  return (← tx.toCMutableTransaction.serialize).length

def CBlock.getSerializeSize (block : CBlock) : Except String Nat := do
  let sizes ← block.vtx.mapM CTransaction.getSerializeSize
  return block.toCBlockHeader.serialize.length
    + (writeCompactSize (UInt64.ofNat block.vtx.length)).length + sizes.sum

section Merkle

variable (hash : Bytes → Uint256)

/-- One level of the merkle tree from the level below it, and whether that level ends in two
identical hashes that are paired. An odd last hash is paired with itself.
-/
def merkleLevel : List Uint256 → List Uint256 × Bool
  | [] => ([], false)
  | [a] => ([hash (a.toList ++ a.toList)], false)
  | [a, b] => ([hash (a.toList ++ b.toList)], a == b)
  | a :: b :: c :: rest =>
    let (next, mutated) := merkleLevel (c :: rest)
    (hash (a.toList ++ b.toList) :: next, mutated)

/-- The loop of `BuildMerkleTree` over the levels; there are fewer levels than hashes. -/
def merkleLevels : Nat → List Uint256 → Bool → Uint256 × Bool
  | 0, level, mutated => (level.head?.getD .null, mutated)
  | n + 1, level, mutated =>
    if level.length ≤ 1 then (level.head?.getD .null, mutated)
    else
      let (next, repeated) := merkleLevel hash level
      merkleLevels n next (mutated || repeated)

/-- `BuildMerkleTree`: the root, and `fMutated`. -/
def CBlock.buildMerkleTree (block : CBlock) : Uint256 × Bool :=
  merkleLevels hash block.vtx.length (block.vtx.map CTransaction.getHash) false

end Merkle

end Resistance.Primitives

import Resistance.Consensus.ChainParams
import Resistance.Primitives.WireFormat
import Resistance.Zcash.IncrementalMerkleTree

/-! What block validation asks of code outside of the model: hash functions, and the verdicts
of script, signature, proof and proof-of-work checks, which may be any at all.
-/

namespace Resistance.Validation

open Primitives Consensus Zcash

/-- The hash functions. They are the same in every call, unlike the verdicts of
`Environment`.
-/
structure Hashes where
  /-- The double SHA-256 of block headers and merkle trees. -/
  hash : Bytes → Uint256
  /-- `SHA256Compress`, of the Sprout note commitment tree. -/
  sprout : MerkleHash Uint256
  /-- `PedersenHash`, of the Sapling note commitment tree. -/
  sapling : MerkleHash Uint256

/-- `INCREMENTAL_MERKLE_TREE_DEPTH` and `SAPLING_INCREMENTAL_MERKLE_TREE_DEPTH`. -/
def sproutTreeDepth : Nat := 29
def saplingTreeDepth : Nat := 32

/-- The verdicts and settings that one call of the validation code meets. -/
structure Environment where
  /-- `CheckProofOfWork` of the header's proof-of-work hash. -/
  checkProofOfWork : CBlockHeader → Bool
  getAdjustedTime : Int
  isInitialBlockDownload : Bool
  /-- `JSDescription::Verify`, with the strict or with the disabled verifier. -/
  joinSplitVerify : (strict : Bool) → JSDescription → (joinSplitPubKey : Uint256) → Bool
  /-- `SignatureHash` of the whole transaction for the epoch of a height, if it does not
  throw.
  -/
  signatureHash : CTransaction → (nHeight : Int) → Option Uint256
  /-- `crypto_sign_verify_detached` of the joinsplit signature. -/
  joinSplitSigVerify : CTransaction → (dataToBeSigned : Uint256) → Bool
  saplingCheckSpend : CTransaction → SpendDescription → (dataToBeSigned : Uint256) → Bool
  saplingCheckOutput : CTransaction → OutputDescription → Bool
  saplingFinalCheck : CTransaction → (dataToBeSigned : Uint256) → Bool
  getLegacySigOpCount : CTransaction → UInt32
  /-- `GetP2SHSigOpCount`, given the outputs that the inputs spend. -/
  getP2SHSigOpCount : CTransaction → List CTxOut → UInt32
  /-- The error of a `CScriptCheck` of one input, with all flags or only the mandatory ones. -/
  scriptCheck : (mandatoryOnly : Bool) → CTransaction → (nIn : Nat) → CTxOut → Option String
  /-- False for ancestors of a checkpoint. -/
  fExpensiveChecks : Bool
  /-- Whether script checks are queued for other threads. -/
  nScriptCheckThreads : Bool
  fCoinbaseEnforcedProtectionEnabled : Bool

end Resistance.Validation

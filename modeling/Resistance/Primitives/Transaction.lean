import Resistance.Primitives.Serialize

/-! Transactions and their wire format, from `primitives/transaction.h`. Reading updates an
existing object: a field that the format leaves out keeps the value it had.
-/

namespace Resistance.Primitives

open Lib.Codec

-- `base_blob<256>`; the bytes in memory order.
abbrev Uint256 := List.Vector UInt8 32

def Uint256.null : Uint256 := List.Vector.replicate 32 0

-- A `std::array<unsigned char, n>` with all bytes zero.
def zeroBytes (n : Nat) : List.Vector UInt8 n := List.Vector.replicate n 0

abbrev CAmount := Int64

abbrev CScript := List UInt8

structure CompressedG1 where
  yLsb : Bool := false
  x : List.Vector UInt8 32 := zeroBytes 32
  deriving DecidableEq

structure CompressedG2 where
  yGt : Bool := false
  x : List.Vector UInt8 64 := zeroBytes 64
  deriving DecidableEq

structure PHGRProof where
  gA : CompressedG1 := {}
  gAPrime : CompressedG1 := {}
  gB : CompressedG2 := {}
  gBPrime : CompressedG1 := {}
  gC : CompressedG1 := {}
  gCPrime : CompressedG1 := {}
  gK : CompressedG1 := {}
  gH : CompressedG1 := {}
  deriving DecidableEq

abbrev GrothProof := List.Vector UInt8 192

-- `boost::variant<PHGRProof, GrothProof>`.
inductive SproutProof where
  | phgr (proof : PHGRProof)
  | groth (proof : GrothProof)
  deriving DecidableEq

def SproutProof.isGroth : SproutProof → Bool
  | .phgr _ => false
  | .groth _ => true

structure SpendDescription where
  cv : Uint256 := .null
  anchor : Uint256 := .null
  nullifier : Uint256 := .null
  rk : Uint256 := .null
  zkproof : GrothProof := zeroBytes 192
  spendAuthSig : List.Vector UInt8 64 := zeroBytes 64
  deriving DecidableEq

structure OutputDescription where
  cv : Uint256 := .null
  cm : Uint256 := .null
  ephemeralKey : Uint256 := .null
  encCiphertext : List.Vector UInt8 580 := zeroBytes 580
  outCiphertext : List.Vector UInt8 80 := zeroBytes 80
  zkproof : GrothProof := zeroBytes 192
  deriving DecidableEq

structure JSDescription where
  vpubOld : CAmount := 0
  vpubNew : CAmount := 0
  anchor : Uint256 := .null
  nullifiers : List.Vector Uint256 2 := List.Vector.replicate 2 .null
  commitments : List.Vector Uint256 2 := List.Vector.replicate 2 .null
  ephemeralKey : Uint256 := .null
  ciphertexts : List.Vector (List.Vector UInt8 601) 2 := List.Vector.replicate 2 (zeroBytes 601)
  randomSeed : Uint256 := .null
  macs : List.Vector Uint256 2 := List.Vector.replicate 2 .null
  proof : SproutProof := .phgr {}
  deriving DecidableEq

structure COutPoint where
  hash : Uint256 := .null
  n : UInt32 := 0xFFFFFFFF
  deriving DecidableEq

def COutPoint.isNull (prevout : COutPoint) : Bool :=
  prevout.hash == Uint256.null && prevout.n == 0xFFFFFFFF

structure CTxIn where
  prevout : COutPoint := {}
  scriptSig : CScript := []
  nSequence : UInt32 := 0xFFFFFFFF
  deriving DecidableEq

structure CTxOut where
  nValue : CAmount := -1
  scriptPubKey : CScript := []
  deriving DecidableEq

def CTxOut.setNull : CTxOut := {}

def CTxOut.isNull (out : CTxOut) : Bool := out.nValue == -1

def overwinterVersionGroupId : UInt32 := 0x03C48270
def saplingVersionGroupId : UInt32 := 0x892F2085
def overwinterTxVersion : Int32 := 3
def saplingTxVersion : Int32 := 4
def sproutMinCurrentVersion : Int32 := 1

/-- The fields' defaults are those of the constructor without arguments. -/
structure CMutableTransaction where
  fOverwintered : Bool := false
  nVersion : Int32 := sproutMinCurrentVersion
  nVersionGroupId : UInt32 := 0
  vin : List CTxIn := []
  vout : List CTxOut := []
  nLockTime : UInt32 := 0
  nExpiryHeight : UInt32 := 0
  valueBalance : CAmount := 0
  vShieldedSpend : List SpendDescription := []
  vShieldedOutput : List OutputDescription := []
  vJoinSplit : List JSDescription := []
  joinSplitPubKey : Uint256 := .null
  joinSplitSig : List.Vector UInt8 64 := zeroBytes 64
  bindingSig : List.Vector UInt8 64 := zeroBytes 64
  deriving DecidableEq

/-- The immutable transaction, with the hash that its constructors cache. -/
structure CTransaction extends CMutableTransaction where
  hash : Uint256
  deriving DecidableEq

def CTransaction.getHash (tx : CTransaction) : Uint256 := tx.hash

def CTransaction.isCoinBase (tx : CTransaction) : Bool :=
  match tx.vin with
  | [txin] => txin.prevout.isNull
  | _ => false

/-- The nullifiers of the joinsplits, in the order in which they are revealed. -/
def CTransaction.sproutNullifiers (tx : CTransaction) : List Uint256 :=
  tx.vJoinSplit.flatMap fun joinsplit => joinsplit.nullifiers.toList

def CTransaction.saplingNullifiers (tx : CTransaction) : List Uint256 :=
  tx.vShieldedSpend.map SpendDescription.nullifier

end Resistance.Primitives

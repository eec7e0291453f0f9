import Resistance.Coins.Coins
import Resistance.Coins.Compressor
import Resistance.Primitives.PartialMerkleTree

/-! How `CCoins` is written to and read from the coins database, from `coins.h` and `coins.cpp`:
a header code with the availability of the first two outputs, a mask for the others, and the
unspent outputs.
-/

namespace Resistance.Coins

open Primitives Consensus Script Lib.Codec
open Resistance.Primitives.CPartialMerkleTree (packByte)

/-- `i < vout.size() && !vout[i].IsNull()`. -/
def available (vout : List CTxOut) (i : Nat) : Bool := vout[i]?.any (! ·.isNull)

/-- The loop of `CalcMaskSize` from byte `b` on: `nLastUsedByte` and `nNonzeroBytes`, or `none`
where it takes more than `fuel` rounds. The index wraps around at 32 bits.
-/
def maskLoop (vout : List CTxOut) : Nat → UInt32 → UInt32 → UInt32 → Option (UInt32 × UInt32)
  | 0, _, _, _ => none
  | fuel + 1, b, nLastUsedByte, nNonzeroBytes =>
    if (2 + b * 8).toNat < vout.length then
      let fZero := (List.range 8).all fun i => ! available vout (2 + b * 8 + UInt32.ofNat i).toNat
      if fZero then maskLoop vout fuel (b + 1) nLastUsedByte nNonzeroBytes
      else maskLoop vout fuel (b + 1) (b + 1) (nNonzeroBytes + 1)
    else some (nLastUsedByte, nNonzeroBytes)

def calcMaskSize (fuel : Nat) (vout : List CTxOut) : Option (UInt32 × UInt32) :=
  maskLoop vout fuel 0 0 0

/-- A byte of the spentness bitmask. -/
def chAvail (vout : List CTxOut) (b : Nat) : UInt8 :=
  packByte fun i => available vout (2 + b * 8 + i)

/-- Why no bytes are written: the loop of `CalcMaskSize` has not ended, or the coins are pruned. -/
inductive SerializeFailure where
  | unfinished
  | assertion
  deriving DecidableEq

/-- `WriteVarInt` of an `int`; a negative one is cut to its low bits. -/
def writeVarIntSigned (n : Int32) : Bytes :=
  if n < 0 then [UInt8.ofNat (n.toUInt32.toNat &&& 0x7F)] else writeVarInt 32 n.toUInt32.toNat

def readVarIntSigned : Reader String Int32 := do
  let n ← readVarInt 32
  pure (UInt32.ofNat n).toInt32

namespace CCoins

section Keys

-- `CPubKey::IsFullyValid` and `CPubKey::Decompress`.
variable (isFullyValid : Bytes → Bool) (decompressKey : Bytes → Option Bytes)

/-- `nCode` of `Serialize`. -/
def headerCode (fCoinBase fFirst fSecond : Bool) (nMaskCode : UInt32) : UInt32 :=
  8 * (nMaskCode - (if fFirst || fSecond then 0 else 1)) + (if fCoinBase then 1 else 0)
    + (if fFirst then 2 else 0) + (if fSecond then 4 else 0)

def serialize (fuel : Nat) (coins : CCoins) : Except SerializeFailure Bytes :=
  match calcMaskSize fuel coins.vout with
  | none => .error .unfinished
  | some (nMaskSize, nMaskCode) =>
    let fFirst := available coins.vout 0
    let fSecond := available coins.vout 1
    if !(fFirst || fSecond || nMaskCode != 0) then .error .assertion
    else
      let nCode := headerCode coins.fCoinBase fFirst fSecond nMaskCode
      .ok (writeVarIntSigned coins.nVersion
        ++ writeVarInt 32 nCode.toNat
        ++ (List.range nMaskSize.toNat).map (chAvail coins.vout)
        ++ (coins.vout.filter (! ·.isNull)).flatMap (serializeTxOut isFullyValid)
        ++ writeVarIntSigned (Int32.ofInt coins.nHeight))

/-- The availability of the outputs that one byte of the spentness bitmask stands for. -/
def flags (chAvail : UInt8) : List Bool :=
  (List.range 8).map fun p => chAvail &&& (1 <<< UInt8.ofNat p) != 0

/-- The loop of `Unserialize` over the spentness bitmask. -/
def readMask : Nat → Reader String (List Bool)
  | 0, stream => .ok ([], stream)
  | _ + 1, [] => .error endOfData
  | nMaskCode + 1, chAvail :: rest =>
    match readMask (if chAvail ≠ 0 then nMaskCode else nMaskCode + 1) rest with
    | .error e => .error e
    | .ok (vAvail, rest) => .ok (flags chAvail ++ vAvail, rest)

/-- The loop of `Unserialize` over the outputs. -/
def readTxOuts : List Bool → Reader String (List CTxOut)
  | [] => pure []
  | true :: vAvail => do
    let txout ← unserializeTxOut decompressKey
    let vout ← readTxOuts vAvail
    pure (txout :: vout)
  | false :: vAvail => do
    let vout ← readTxOuts vAvail
    pure ({} :: vout)

def unserialize : Reader String CCoins := do
  let nVersion ← readVarIntSigned
  let nCode ← readVarInt 32
  let nMaskCode := nCode / 8 + (if nCode &&& 6 ≠ 0 then 0 else 1)
  let vAvail ← readMask nMaskCode
  let vout ← readTxOuts decompressKey ((nCode &&& 2 != 0) :: (nCode &&& 4 != 0) :: vAvail)
  let nHeight ← readVarIntSigned
  pure (cleanup { fCoinBase := nCode &&& 1 != 0, vout, nHeight := nHeight.toInt, nVersion })

end Keys

end CCoins

end Resistance.Coins

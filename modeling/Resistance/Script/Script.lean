import Mathlib.Data.Nat.Digits.Defs
import Resistance.Primitives.Transaction

/-! The parts of `script/script.h` that consensus rules and the miner use: pushing numbers,
data and opcodes, pay-to-script-hash outputs and provably unspendable scripts.
-/

namespace Resistance.Script

open Primitives Lib.Codec

def op0 : UInt8 := 0x00
def opPushdata1 : UInt8 := 0x4c
def opPushdata2 : UInt8 := 0x4d
def opPushdata4 : UInt8 := 0x4e
def op1 : UInt8 := 0x51
def opReturn : UInt8 := 0x6a
def opEqual : UInt8 := 0x87
def opHash160 : UInt8 := 0xa9

def maxScriptSize : Nat := 10000

/-- `CScriptNum::serialize`: the magnitude in little-endian order, with the sign in the
highest bit of the last byte.
-/
def scriptNumSerialize (value : Int64) : List UInt8 :=
  let neg := value < 0
  let result := (Nat.digits 256 value.toInt.natAbs).map UInt8.ofNat
  match result.getLast? with
  | none => []
  | some back =>
    if back &&& 0x80 ≠ 0 then result ++ [if neg then 0x80 else 0]
    else if neg then result.dropLast ++ [back ||| 0x80]
    else result

/-- `CScript::operator<<(const std::vector<unsigned char>& b)`. -/
def pushData (script : CScript) (b : List UInt8) : CScript :=
  let size := b.length
  let header :=
    if size < opPushdata1.toNat then [UInt8.ofNat size]
    else if size ≤ 0xff then [opPushdata1, UInt8.ofNat size]
    else if size ≤ 0xffff then opPushdata2 :: leBytes 2 size
    else opPushdata4 :: leBytes 4 size
  script ++ header ++ b

/-- `CScript::push_int64`. -/
def pushInt64 (script : CScript) (n : Int64) : CScript :=
  if n = -1 ∨ (n ≥ 1 ∧ n ≤ 16) then script ++ [UInt8.ofInt (n.toInt + (op1.toNat - 1))]
  else if n = 0 then script ++ [op0]
  else pushData script (scriptNumSerialize n)

-- A script identifier, or a key identifier: 160 bits.
abbrev Uint160 := List.Vector UInt8 20

def payToScriptHash (scriptID : Uint160) : CScript :=
  pushData [opHash160] scriptID.toList ++ [opEqual]

def isUnspendable (script : CScript) : Bool :=
  script.head? == some opReturn || decide (script.length > maxScriptSize)

end Resistance.Script

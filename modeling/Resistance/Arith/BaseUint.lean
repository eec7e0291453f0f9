import Resistance.Lib.Digits

/-! The multi-limb integers of `arith_uint256.h` and `arith_uint256.cpp`. The loops over limbs
are written for any number of limbs; `arith_uint256` has eight.
-/

namespace Resistance.Arith

open UInt32

-- `pn`, with the least significant limb first.
abbrev Limbs := List UInt32

namespace Limbs

/-- The integer that the limbs stand for. -/
def value (pn : Limbs) : Nat := Nat.ofDigits (2 ^ 32) (pn.map toNat)

/-- `pn[i]`. -/
def limb (pn : Limbs) (i : Nat) : UInt32 := pn.getD i 0

-- `*this = 0`, for as many limbs as `pn` has.
def zero (pn : Limbs) : Limbs := List.replicate pn.length 0

/-- `pn[i] |= x`. -/
def orAt (pn : Limbs) (i : Nat) (x : UInt32) : Limbs := pn.modify i (· ||| x)

/-- The loops with a carry: at each limb `n` is the carry plus what the operator adds there. -/
def carryLoop : UInt64 → List UInt64 → Limbs
  | _, [] => []
  | carry, addend :: addends =>
    let n := carry + addend
    n.toUInt32 :: carryLoop (n >>> 32) addends

/-- `operator+=`. -/
def add (pn b : Limbs) : Limbs :=
  carryLoop 0 (List.zipWith (fun p q => p.toUInt64 + q.toUInt64) pn b)

/-- `operator~`. -/
def complement (pn : Limbs) : Limbs := pn.map (~~~ ·)

/-- `operator++`. -/
def increment : Limbs → Limbs
  | [] => []
  | p :: ps => if p + 1 = 0 then (p + 1) :: increment ps else (p + 1) :: ps

/-- The unary `operator-`. -/
def neg (pn : Limbs) : Limbs := pn.complement.increment

/-- `operator-=`. -/
def sub (pn b : Limbs) : Limbs := pn.add b.neg

/-- `operator*=` with a `uint32_t`. -/
def mul32 (pn : Limbs) (b32 : UInt32) : Limbs :=
  carryLoop 0 (pn.map fun p => b32.toUInt64 * p.toUInt64)

/-- The inner loop of `operator*=`, for `a.pn[j]`. -/
def mulRow (a b : Limbs) (pn : Limbs) (j : Nat) : Limbs :=
  pn.take j ++ carryLoop 0
    (List.zipWith (fun p q => p.toUInt64 + (a.limb j).toUInt64 * q.toUInt64) (pn.drop j) b)

/-- `operator*=`. -/
def mul (a b : Limbs) : Limbs := (List.range a.length).foldl (mulRow a b) a.zero

/-- One round of `operator<<=`, with `shift` split into `k` limbs and `s` bits. -/
def shiftLeftRound (a : Limbs) (k s : Nat) (pn : Limbs) (i : Nat) : Limbs :=
  let pn := if i + k + 1 < a.length ∧ s ≠ 0
    then pn.orAt (i + k + 1) (a.limb i >>> ofNat (32 - s)) else pn
  if i + k < a.length then pn.orAt (i + k) (a.limb i <<< ofNat s) else pn

/-- `operator<<=`. -/
def shiftLeft (a : Limbs) (shift : Nat) : Limbs :=
  (List.range a.length).foldl (a.shiftLeftRound (shift / 32) (shift % 32)) a.zero

/-- One round of `operator>>=`. -/
def shiftRightRound (a : Limbs) (k s : Nat) (pn : Limbs) (i : Nat) : Limbs :=
  let pn := if k + 1 ≤ i ∧ s ≠ 0
    then pn.orAt (i - k - 1) (a.limb i <<< ofNat (32 - s)) else pn
  if k ≤ i then pn.orAt (i - k) (a.limb i >>> ofNat s) else pn

/-- `operator>>=`. -/
def shiftRight (a : Limbs) (shift : Nat) : Limbs :=
  (List.range a.length).foldl (a.shiftRightRound (shift / 32) (shift % 32)) a.zero

/-- The inner loop of `bits`, from the bit `bits` of a limb down to its lowest. -/
def limbBits (p : UInt32) : Nat → Nat
  | 0 => 1
  | bits + 1 => if p &&& (1 <<< ofNat (bits + 1)) ≠ 0 then bits + 2 else limbBits p bits

/-- The outer loop of `bits`, over the limbs below `pos`. -/
def bitsFrom (pn : Limbs) : Nat → Nat
  | 0 => 0
  | pos + 1 => if pn.limb pos ≠ 0 then 32 * pos + limbBits (pn.limb pos) 31 else pn.bitsFrom pos

def bits (pn : Limbs) : Nat := pn.bitsFrom pn.length

/-- The loop of `CompareTo`, over the limbs below `i`. -/
def compareFrom (a b : Limbs) : Nat → Int
  | 0 => 0
  | i + 1 =>
    if a.limb i < b.limb i then -1
    else if a.limb i > b.limb i then 1
    else a.compareFrom b i

def compareTo (a b : Limbs) : Int := a.compareFrom b a.length

/-- `EqualTo`. -/
def equalTo (pn : Limbs) (b : UInt64) : Bool :=
  (pn.drop 2).all (· == 0) && (pn.limb 1).toUInt64 == b >>> 32
    && (pn.limb 0).toUInt64 == b &&& 0xffffffff

/-- The loop of `operator/=`; the counter is `shift + 1`. -/
def divLoop : Nat → Limbs → Limbs → Limbs → Limbs
  | 0, _, _, pn => pn
  | shift + 1, num, div, pn =>
    if 0 ≤ num.compareTo div then
      divLoop shift (num.sub div) (div.shiftRight 1)
        (pn.orAt (shift / 32) (1 <<< ofNat (shift % 32)))
    else divLoop shift num (div.shiftRight 1) pn

/-- `operator/=` after its check for zero. -/
def quotient (num div : Limbs) : Limbs :=
  let num_bits := num.bits
  let div_bits := div.bits
  -- The result is certainly 0.
  if num_bits < div_bits then num.zero
  else
    let shift := num_bits - div_bits
    divLoop (shift + 1) num (div.shiftLeft shift) num.zero

end Limbs

end Resistance.Arith

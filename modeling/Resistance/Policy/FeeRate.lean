import Resistance.Consensus.Amount
import Resistance.Primitives.WireFormat
import Resistance.Script.Script

/-! Fee rates, from `amount.h`, and the outputs that cost too much to spend, from
`primitives/transaction.h`.
-/

namespace Resistance.Policy

open Primitives Script Lib

/-- The unit is satoshis per 1000 bytes. -/
structure CFeeRate where
  nSatoshisPerK : CAmount := 0
  deriving DecidableEq

namespace CFeeRate

/-- `CFeeRate::GetFee`; the size is a `size_t`, so that the product is unsigned. -/
def getFee (rate : CFeeRate) (nSize : Nat) : CAmount :=
  let nFee := (rate.nSatoshisPerK.toUInt64 * UInt64.ofNat nSize / 1000).toInt64
  if nFee = 0 ∧ rate.nSatoshisPerK > 0 then rate.nSatoshisPerK else nFee

def getFeePerK (rate : CFeeRate) : CAmount := rate.getFee 1000

/-- What `ParseMoney` can return: at most ten digits before the point. -/
def Parsed (rate : CFeeRate) : Prop :=
  0 ≤ rate.nSatoshisPerK.toInt ∧ rate.nSatoshisPerK.toInt ≤ 10 ^ 18

end CFeeRate

def getDustThreshold (minRelayTxFee : CFeeRate) (txout : CTxOut) : CAmount :=
  if isUnspendable txout.scriptPubKey then 0
  else 3 * minRelayTxFee.getFee (txout.serialize.length + 148)

def isDust (minRelayTxFee : CFeeRate) (txout : CTxOut) : Bool :=
  txout.nValue < getDustThreshold minRelayTxFee txout

/-- A quotient by 1000 is small, even of a product that has wrapped. -/
theorem CFeeRate.getFee_range {rate : CFeeRate} (parsed : rate.Parsed) (nSize : Nat)
    : 0 ≤ (rate.getFee nSize).toInt ∧ (rate.getFee nSize).toInt ≤ 10 ^ 18 := by
  rw [getFee]
  split
  · exact parsed
  have quotient : (rate.nSatoshisPerK.toUInt64 * UInt64.ofNat nSize / 1000).toNat
      ≤ 10 ^ 18 := by
    have upper := (rate.nSatoshisPerK.toUInt64 * UInt64.ofNat nSize).toNat_lt
    have thousand : (1000 : UInt64).toNat = 1000 := rfl
    rw [UInt64.toNat_div, thousand]
    omega
  rw [MachineInt.toInt_toInt64 (by omega)]
  omega

section

variable {minRelayTxFee : CFeeRate} (parsed : minRelayTxFee.Parsed)
include parsed

/-- A dust threshold is not negative, so that no negative output passes the test. -/
theorem getDustThreshold_range (txout : CTxOut)
    : 0 ≤ (getDustThreshold minRelayTxFee txout).toInt
      ∧ (getDustThreshold minRelayTxFee txout).toInt ≤ 3 * 10 ^ 18 := by
  rw [getDustThreshold]
  split
  · decide
  · obtain ⟨low, high⟩ := CFeeRate.getFee_range parsed (txout.serialize.length + 148)
    have three : (3 : CAmount).toInt = 3 := rfl
    rw [MachineInt.toInt_mul (by rw [three]; exact ⟨by omega, by omega⟩), three]
    omega

theorem nonneg_of_not_dust {txout} (notDust : isDust minRelayTxFee txout = false)
    : 0 ≤ txout.nValue.toInt := by
  rw [isDust, decide_eq_false_iff_not, Int64.lt_iff_toInt_lt, not_lt] at notDust
  exact (getDustThreshold_range parsed txout).1.trans notDust

end

/-- The threshold depends on the script only. -/
theorem getDustThreshold_congr (minRelayTxFee : CFeeRate) {txout other}
    (script : txout.scriptPubKey = other.scriptPubKey)
    : getDustThreshold minRelayTxFee txout = getDustThreshold minRelayTxFee other := by
  have size : txout.serialize.length = other.serialize.length := by
    simp [CTxOut.serialize, serializeInt64, serWritedata64, Codec.leBytes_length, script]
  rw [getDustThreshold, getDustThreshold, script, size]

/-- An output that is raised to the threshold is no dust. -/
theorem not_dust_of_threshold {minRelayTxFee txout}
    (raised : txout.nValue = getDustThreshold minRelayTxFee txout)
    : isDust minRelayTxFee txout = false := by
  rw [isDust, decide_eq_false_iff_not, Int64.not_lt]
  exact Int64.le_of_eq raised.symm

end Resistance.Policy

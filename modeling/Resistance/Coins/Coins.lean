import Mathlib.Data.List.DropRight
import Resistance.Lib.FiniteMap
import Resistance.Script.Script

/-! `CCoins`, the unspent outputs of one transaction, from `coins.h` and `coins.cpp`. -/

namespace Resistance.Coins

open Primitives Script Lib

/-- Spent outputs are null; those at the end of `vout` are dropped. -/
structure CCoins where
  fCoinBase : Bool := false
  vout : List CTxOut := []
  nHeight : Int := 0
  nVersion : Int32 := 0
  deriving DecidableEq

namespace CCoins

/-- The state after `Clear`, and that of the empty constructor. -/
def clear : CCoins := {}

/-- Remove spent outputs at the end of `vout`. -/
def cleanup (coins : CCoins) : CCoins :=
  { coins with vout := coins.vout.rdropWhile CTxOut.isNull }

def clearUnspendable (coins : CCoins) : CCoins :=
  cleanup { coins with
    vout := coins.vout.map fun txout =>
      if isUnspendable txout.scriptPubKey then .setNull else txout }

def fromTx (tx : CTransaction) (nHeightIn : Int) : CCoins :=
  clearUnspendable {
    fCoinBase := tx.isCoinBase
    vout := tx.vout
    nHeight := nHeightIn
    nVersion := tx.nVersion }

def isAvailable (coins : CCoins) (nPos : UInt32) : Bool :=
  coins.vout[nPos.toNat]?.any (! ·.isNull)

def isPruned (coins : CCoins) : Bool :=
  coins.vout.all CTxOut.isNull

/-- `Spend`: `none` where it returns `false`, which leaves the coins as they were. -/
def spend (coins : CCoins) (nPos : UInt32) : Option CCoins :=
  if coins.isAvailable nPos then
    some (cleanup { coins with vout := coins.vout.set nPos.toNat .setNull })
  else none

/-- Nothing is left to clean up. -/
def Clean (coins : CCoins) : Prop := coins.cleanup = coins

theorem clean_cleanup (coins : CCoins) : coins.cleanup.Clean := by
  simp [Clean, cleanup, List.rdropWhile_idempotent]

theorem clean_clear : clear.Clean := rfl

/-- Cleaning up empties exactly the pruned coins. -/
theorem cleanup_vout_eq_nil_iff {coins : CCoins}
    : coins.cleanup.vout = [] ↔ coins.isPruned = true := by
  simp [cleanup, isPruned]

theorem Clean.vout_eq_nil_iff {coins : CCoins} (clean : coins.Clean)
    : coins.vout = [] ↔ coins.isPruned = true := by
  rw [← cleanup_vout_eq_nil_iff, clean]

@[simp] theorem isPruned_cleanup (coins : CCoins)
    : coins.cleanup.isPruned = coins.isPruned := by
  rw [Bool.eq_iff_iff, ← coins.clean_cleanup.vout_eq_nil_iff, cleanup_vout_eq_nil_iff]

end CCoins

/-! The coins as one finite map from transaction ids to unspent coins, in which a fully spent
entry equals an absent one.
-/

/-- A fully spent entry equals an absent one. -/
def live (found : Option CCoins) : Option CCoins := found.filter (! ·.isPruned)

theorem live_eq_self {coins} (unspent : coins.isPruned = false)
    : live (some coins) = some coins := by
  simp [live, unspent]

theorem live_pruned {coins} (pruned : coins.isPruned = true)
    : live (some coins) = none := by
  simp [live, pruned]

theorem live_live (found : Option CCoins) : live (live found) = live found := by
  cases found with
  | none => rfl
  | some coins =>
    cases pruned : coins.isPruned with
    | true => rw [live_pruned pruned]; rfl
    | false => rw [live_eq_self pruned, live_eq_self pruned]

theorem mem_of_mem_live {found coins} (mem : coins ∈ live found)
    : coins ∈ found :=
  (Option.mem_filter_iff.mp mem).1

/-- The unspent coins of every transaction. -/
abbrev CoinsMap := FiniteMap Uint256 CCoins

namespace CoinsMap

/-- What a modifier starts from. -/
def getOrClear (coins : CoinsMap) (txid : Uint256) : CCoins := (coins.lookup txid).getD .clear

/-- What a modifier leaves behind. -/
def edit (coins : CoinsMap) (txid : Uint256) (edited : CCoins) : CoinsMap :=
  FiniteMap.put coins txid (live (some edited.cleanup))

@[simp] theorem lookup_edit_self (coins : CoinsMap) (txid : Uint256) (edited : CCoins)
    : (coins.edit txid edited).lookup txid = live (some edited.cleanup) :=
  FiniteMap.lookup_put_self ..

theorem lookup_edit_ne (coins : CoinsMap) {txid other} (edited : CCoins) (ne : other ≠ txid)
    : (coins.edit txid edited).lookup other = coins.lookup other :=
  FiniteMap.lookup_put_ne _ _ ne

end CoinsMap

end Resistance.Coins

import Mathlib.Algebra.Order.BigOperators.Group.List
import Resistance.Coins.Coins

/-! The unspent outputs of a coins map, their values, and the normal form in which they
determine the coins of a transaction.
-/

namespace Resistance.Coins

open List Primitives Script Lib CCoins

/-- An unspent output with what is known of its transaction. -/
structure Unspent where
  txout : CTxOut
  fCoinBase : Bool
  nHeight : Int
  nVersion : Int32
  deriving DecidableEq

/-- Two outputs can be of one transaction. -/
def Unspent.SameTx (a b : Unspent) : Prop :=
  a.fCoinBase = b.fCoinBase ∧ a.nHeight = b.nHeight ∧ a.nVersion = b.nVersion

namespace CCoins

def describe (coins : CCoins) (txout : CTxOut) : Unspent where
  txout
  fCoinBase := coins.fCoinBase
  nHeight := coins.nHeight
  nVersion := coins.nVersion

/-- The unspent output at a position. -/
def unspent (coins : CCoins) (n : Nat) : Option Unspent :=
  (coins.vout[n]?.filter (! ·.isNull)).map coins.describe

variable {coins : CCoins} {n : UInt32} {tx : CTransaction}

theorem unspent_eq_some_iff {n found}
    : coins.unspent n = some found
      ↔ coins.vout[n]? = some found.txout ∧ found.txout.isNull = false
        ∧ coins.fCoinBase = found.fCoinBase ∧ coins.nHeight = found.nHeight
        ∧ coins.nVersion = found.nVersion := by
  obtain ⟨txout, fCoinBase, nHeight, nVersion⟩ := found
  simp only [unspent, describe, Option.map_eq_some_iff, Option.filter_eq_some_iff,
    Bool.not_eq_true', Unspent.mk.injEq]
  constructor
  · rintro ⟨_, ⟨there, notNull⟩, rfl, rfl, rfl, rfl⟩
    exact ⟨there, notNull, rfl, rfl, rfl⟩
  · rintro ⟨there, notNull, rfl, rfl, rfl⟩
    exact ⟨_, ⟨there, notNull⟩, rfl, rfl, rfl, rfl⟩

theorem unspent_eq_none_iff {n}
    : coins.unspent n = none ↔ ∀ txout, coins.vout[n]? = some txout → txout.isNull = true := by
  simp [unspent]

theorem isAvailable_iff
    : coins.isAvailable n = true ↔ (coins.unspent n.toNat).isSome = true := by
  simp only [isAvailable, unspent]
  cases coins.vout[n.toNat]? with
  | none => rfl
  | some txout => cases null : txout.isNull <;> simp [null]

/-- Pruned coins are those without unspent outputs. -/
theorem isPruned_iff
    : coins.isPruned = true ↔ ∀ n, coins.unspent n = none := by
  simp only [isPruned, all_eq_true, unspent_eq_none_iff]
  constructor
  · intro null n txout there
    exact null txout (mem_of_getElem? there)
  · intro null txout mem
    obtain ⟨n, there⟩ := mem_iff_getElem?.mp mem
    exact null n txout there

@[simp] theorem unspent_clear (n : Nat) : clear.unspent n = none := rfl

/-- Only null outputs are cleaned up. -/
theorem exists_append_cleanup (coins : CCoins)
    : ∃ spent, coins.vout = coins.cleanup.vout ++ spent ∧ ∀ txout ∈ spent, txout.isNull = true :=
  ⟨_, rdropWhile_append_rtakeWhile.symm, fun _ => mem_rtakeWhile_imp⟩

@[simp] theorem unspent_cleanup (coins : CCoins) (n : Nat)
    : coins.cleanup.unspent n = coins.unspent n := by
  obtain ⟨spent, split, null⟩ := coins.exists_append_cleanup
  have same : coins.cleanup.vout[n]?.filter (! ·.isNull) = coins.vout[n]?.filter (! ·.isNull) := by
    rcases Nat.lt_or_ge n coins.cleanup.vout.length with inside | outside
    · rw [split, getElem?_append_left inside]
    · rw [getElem?_eq_none outside, split, getElem?_append_right outside]
      refine (Option.filter_eq_none_iff.mpr fun txout there => ?_).symm
      rw [null txout (mem_of_getElem? there)]
      exact Bool.false_ne_true
  rw [unspent, same]
  rfl

theorem isAvailable_of_spend {spent} (run : coins.spend n = some spent)
    : coins.isAvailable n = true
      ∧ spent = cleanup { coins with vout := coins.vout.set n.toNat .setNull } := by
  unfold spend at run
  split at run
  · next available => exact ⟨available, (Option.some.inj run).symm⟩
  · cases run

theorem unspent_spend {spent} (run : coins.spend n = some spent) (m : Nat)
    : spent.unspent m = if m = n.toNat then none else coins.unspent m := by
  obtain ⟨_, rfl⟩ := isAvailable_of_spend run
  rw [unspent_cleanup]
  split
  next same =>
    subst same
    refine unspent_eq_none_iff.mpr fun txout there => ?_
    rw [getElem?_set_self', Option.map_eq_map, Option.map_eq_some_iff] at there
    obtain ⟨_, _, rfl⟩ := there
    rfl
  next other =>
    simp only [unspent, getElem?_set_ne (Ne.symm other)]
    rfl

/-- Null outputs have no script. -/
def Blank (coins : CCoins) : Prop := ∀ txout ∈ coins.vout, txout.isNull = true → txout = {}

theorem cleanup_subset (coins : CCoins) : coins.cleanup.vout ⊆ coins.vout := by
  have part := rdropWhile_prefix CTxOut.isNull coins.vout
  exact part.subset

theorem Blank.cleanup {coins : CCoins} (blank : coins.Blank) : coins.cleanup.Blank :=
  fun txout mem => blank txout (cleanup_subset coins mem)

theorem Blank.set (blank : coins.Blank) (n : Nat) {txout} (fine : txout.isNull = true → txout = {})
    : Blank { coins with vout := coins.vout.set n txout } := by
  intro out mem
  rcases mem_or_eq_of_mem_set mem with old | rfl
  · exact blank out old
  · exact fine

theorem Blank.spend {spent} (blank : coins.Blank) (run : coins.spend n = some spent)
    : spent.Blank := by
  obtain ⟨_, rfl⟩ := isAvailable_of_spend run
  exact (blank.set n.toNat fun _ => rfl).cleanup

/-- The last output of clean coins is unspent. -/
theorem Clean.unspent_last (clean : coins.Clean) (nonempty : coins.vout ≠ [])
    : coins.unspent (coins.vout.length - 1) ≠ none := by
  have last : ¬ (coins.vout.getLast nonempty).isNull = true :=
    rdropWhile_eq_self_iff.mp (congrArg vout clean) nonempty
  intro none
  refine last (unspent_eq_none_iff.mp none _ ?_)
  rw [← getLast?_eq_getElem?, getLast?_eq_some_getLast nonempty]

/-- Coins with the same unspent outputs have equally many outputs. -/
theorem Clean.length_le {a b : CCoins} (clean : a.Clean) (same : ∀ n, a.unspent n = b.unspent n)
    : a.vout.length ≤ b.vout.length := by
  by_cases empty : a.vout = []
  · rw [empty]
    exact Nat.zero_le _
  · obtain ⟨found, there⟩ := Option.ne_none_iff_exists'.mp (clean.unspent_last empty)
    rw [same, unspent_eq_some_iff] at there
    obtain ⟨bound, _⟩ := List.getElem?_eq_some_iff.mp there.1
    omega

/-- Unspent coins in their normal form are determined by their unspent outputs. -/
theorem eq_of_unspent {a b : CCoins} (cleanA : a.Clean) (cleanB : b.Clean) (blankA : a.Blank)
    (blankB : b.Blank) (same : ∀ n, a.unspent n = b.unspent n) (live : a.isPruned = false)
    : a = b := by
  have outputs : a.vout = b.vout := by
    have length := Nat.le_antisymm (cleanA.length_le same) (cleanB.length_le fun n => (same n).symm)
    refine ext_getElem length fun n insideA insideB => ?_
    have outA := getElem?_eq_getElem insideA
    have outB := getElem?_eq_getElem insideB
    cases spent : a.unspent n with
    | none =>
      rw [blankA _ (getElem_mem insideA) (unspent_eq_none_iff.mp spent _ outA)]
      rw [same] at spent
      rw [blankB _ (getElem_mem insideB) (unspent_eq_none_iff.mp spent _ outB)]
    | some found =>
      have first := (unspent_eq_some_iff.mp spent).1
      rw [same] at spent
      have second := (unspent_eq_some_iff.mp spent).1
      exact Option.some.inj (outA.symm.trans (first.trans (second.symm.trans outB)))
  have present : ¬ ∀ n, a.unspent n = none := by
    rw [← isPruned_iff, live]
    exact Bool.false_ne_true
  obtain ⟨n, present⟩ := not_forall.mp present
  obtain ⟨found, there⟩ := Option.ne_none_iff_exists'.mp present
  obtain ⟨_, _, coinbaseA, heightA, versionA⟩ := unspent_eq_some_iff.mp there
  rw [same] at there
  obtain ⟨_, _, coinbaseB, heightB, versionB⟩ := unspent_eq_some_iff.mp there
  obtain ⟨_, _, _, _⟩ := a
  obtain ⟨_, _, _, _⟩ := b
  simp only at outputs coinbaseA coinbaseB heightA heightB versionA versionB
  subst outputs coinbaseA heightA versionA
  rw [coinbaseB, heightB, versionB]

theorem mem_clearUnspendable {txout} (mem : txout ∈ coins.clearUnspendable.vout)
    : txout = {} ∨ txout ∈ coins.vout ∧ isUnspendable txout.scriptPubKey = false := by
  obtain ⟨original, listed, rfl⟩ := mem_map.mp (cleanup_subset _ mem)
  split
  · exact .inl rfl
  · next spendable => exact .inr ⟨listed, Bool.eq_false_iff.mpr spendable⟩

/-- Unspendable outputs are cleared once. -/
theorem clearUnspendable_idem (coins : CCoins)
    : coins.clearUnspendable.clearUnspendable = coins.clearUnspendable := by
  have unchanged : ∀ txout ∈ coins.clearUnspendable.vout,
      (if isUnspendable txout.scriptPubKey then .setNull else txout) = id txout := by
    intro txout mem
    rcases mem_clearUnspendable mem with rfl | ⟨_, spendable⟩
    · rfl
    · rw [spendable]
      rfl
  have cleared := map_congr_left unchanged
  have clean : coins.clearUnspendable.Clean := clean_cleanup _
  rw [map_id] at cleared
  rw [clearUnspendable, cleared]
  exact clean

theorem blank_fromTx (nHeight : Int) (outputs : ∀ txout ∈ tx.vout, txout.isNull = false)
    : (fromTx tx nHeight).Blank := by
  intro txout mem null
  rcases mem_clearUnspendable mem with rfl | ⟨listed, _⟩
  · rfl
  · rw [outputs txout listed] at null
    cases null

-- What an output adds to the value of its coins.
def outputValue (txout : CTxOut) : Int := if txout.isNull then 0 else txout.nValue.toInt

/-- The sum of the values of the unspent outputs. -/
def value (coins : CCoins) : Int := (coins.vout.map outputValue).sum

theorem value_cleanup (coins : CCoins) : coins.cleanup.value = coins.value := by
  obtain ⟨spent, split, null⟩ := coins.exists_append_cleanup
  have nothing : (spent.map outputValue).sum = 0 := by
    refine sum_eq_zero fun x mem => ?_
    obtain ⟨txout, listed, rfl⟩ := mem_map.mp mem
    rw [outputValue, if_pos (null txout listed)]
  rw [value, value, split, map_append, sum_append, nothing, add_zero]

theorem value_spend {spent found} (run : coins.spend n = some spent)
    (there : coins.unspent n.toNat = some found)
    : spent.value = coins.value - found.txout.nValue.toInt := by
  obtain ⟨_, rfl⟩ := isAvailable_of_spend run
  obtain ⟨output, notNull, _⟩ := unspent_eq_some_iff.mp there
  obtain ⟨bound, output⟩ := List.getElem?_eq_some_iff.mp output
  have inside : n.toNat < (coins.vout.map outputValue).length := by rwa [length_map]
  have null : outputValue .setNull = 0 := rfl
  rw [value_cleanup, value, value, map_set, sum_set', dif_pos inside,
    getElem_map, output, null, outputValue, notNull]
  simp [sub_eq_add_neg]

theorem value_nonneg
    (nonneg : ∀ n found, coins.unspent n = some found → 0 ≤ found.txout.nValue.toInt)
    : 0 ≤ coins.value := by
  refine sum_nonneg fun x mem => ?_
  obtain ⟨txout, listed, rfl⟩ := mem_map.mp mem
  rw [outputValue]
  split
  · exact Int.le_refl 0
  next notNull =>
    obtain ⟨n, there⟩ := mem_iff_getElem?.mp listed
    exact nonneg n (coins.describe txout) (unspent_eq_some_iff.mpr
      ⟨there, Bool.eq_false_iff.mpr notNull, rfl, rfl, rfl⟩)

/-- The outputs that a transaction leaves are among its outputs. -/
theorem mem_of_unspent_fromTx {nHeight n found} (left : (fromTx tx nHeight).unspent n = some found)
    : found.txout ∈ tx.vout := by
  obtain ⟨there, notNull, _⟩ := unspent_eq_some_iff.mp left
  rcases mem_clearUnspendable (mem_of_getElem? there) with blank | ⟨listed, _⟩
  · rw [blank] at notNull
    cases notNull
  · exact listed

theorem value_fromTx_le (nHeight : Int) (nonneg : ∀ txout ∈ tx.vout, 0 ≤ txout.nValue.toInt)
    : (fromTx tx nHeight).value ≤ (tx.vout.map fun txout => txout.nValue.toInt).sum := by
  rw [fromTx, clearUnspendable, value_cleanup, value, map_map]
  refine sum_le_sum fun txout listed => ?_
  have bound := nonneg txout listed
  simp only [Function.comp_apply, outputValue]
  split
  · exact bound
  · split
    · exact bound
    · exact Int.le_refl _

end CCoins

namespace CoinsMap

/-- The unspent output at a position of a transaction. -/
def utxo (coins : CoinsMap) (txid : Uint256) (n : Nat) : Option Unspent :=
  (coins.lookup txid).bind (·.unspent n)

theorem unspent_getOrClear (coins : CoinsMap) (txid : Uint256) (n : Nat)
    : (coins.getOrClear txid).unspent n = coins.utxo txid n := by
  rw [getOrClear, utxo]
  cases coins.lookup txid <;> rfl

theorem bind_live_unspent (edited : CCoins) (n : Nat)
    : (live (some edited.cleanup)).bind (·.unspent n) = edited.unspent n := by
  cases pruned : edited.cleanup.isPruned with
  | true =>
    have spent := isPruned_iff.mp pruned n
    rw [unspent_cleanup] at spent
    rw [live_pruned pruned, spent]
    rfl
  | false => rw [live_eq_self pruned, Option.bind_some, unspent_cleanup]

/-- An edit changes the unspent outputs of its transaction only. -/
theorem utxo_edit (coins : CoinsMap) (txid : Uint256) (edited : CCoins) (other : Uint256) (n : Nat)
    : (coins.edit txid edited).utxo other n
      = if other = txid then edited.unspent n else coins.utxo other n := by
  split
  next same =>
    subst same
    rw [utxo, lookup_edit_self, bind_live_unspent]
  · next ne => rw [utxo, lookup_edit_ne _ _ ne, utxo]

variable {coins : CoinsMap} {txid : Uint256}

/-- The outputs of one transaction agree on what is known of it. -/
theorem utxo_coherent {m n a b} (first : coins.utxo txid m = some a)
    (second : coins.utxo txid n = some b)
    : a.SameTx b := by
  rw [← unspent_getOrClear, unspent_eq_some_iff] at first second
  obtain ⟨_, _, coinbaseA, heightA, versionA⟩ := first
  obtain ⟨_, _, coinbaseB, heightB, versionB⟩ := second
  exact ⟨coinbaseA.symm.trans coinbaseB, heightA.symm.trans heightB, versionA.symm.trans versionB⟩

/-- The coins of a transaction are in their normal form. -/
def TidyAt (coins : CoinsMap) (txid : Uint256) : Prop :=
  ∀ found ∈ coins.lookup txid, found.Clean ∧ found.Blank

theorem TidyAt.getOrClear (tidy : coins.TidyAt txid)
    : (coins.getOrClear txid).Clean ∧ (coins.getOrClear txid).Blank := by
  rw [CoinsMap.getOrClear]
  cases found : coins.lookup txid with
  | none => exact ⟨clean_clear, nofun⟩
  | some entry => exact tidy entry found

theorem tidyAt_edit_self {edited} (blank : edited.Blank)
    : (coins.edit txid edited).TidyAt txid := by
  intro found mem
  rw [lookup_edit_self] at mem
  cases mem_of_mem_live mem
  exact ⟨edited.clean_cleanup, blank.cleanup⟩

theorem TidyAt.edit {other edited} (tidy : coins.TidyAt other)
    (blank : coins.TidyAt txid → edited.Blank)
    : (coins.edit txid edited).TidyAt other := by
  by_cases same : other = txid
  · subst same
    exact tidyAt_edit_self (blank tidy)
  · intro found mem
    rw [lookup_edit_ne _ _ same] at mem
    exact tidy found mem

/-- The value of an output, if it is unspent. -/
def valueAt (coins : CoinsMap) (prevout : COutPoint) : Int :=
  (coins.utxo prevout.hash prevout.n.toNat).elim 0 fun found => found.txout.nValue.toInt

/-- No unspent output has a negative value. -/
def NonNegative (coins : CoinsMap) : Prop :=
  ∀ txid n found, coins.utxo txid n = some found → 0 ≤ found.txout.nValue.toInt

theorem NonNegative.getOrClear (nonneg : coins.NonNegative) (txid : Uint256)
    : 0 ≤ (coins.getOrClear txid).value := by
  refine value_nonneg fun n found there => ?_
  rw [unspent_getOrClear] at there
  exact nonneg txid n found there

/-- The sum of the values of all unspent outputs. -/
def value (coins : CoinsMap) : Int := FiniteMap.total CCoins.value coins

theorem value_edit (coins : CoinsMap) (txid : Uint256) (edited : CCoins)
    : (coins.edit txid edited).value
      = coins.value - (coins.getOrClear txid).value + edited.value := by
  have before : FiniteMap.weightOf CCoins.value (coins.lookup txid)
      = (coins.getOrClear txid).value := by
    rw [getOrClear]
    cases coins.lookup txid <;> rfl
  have after : FiniteMap.weightOf CCoins.value (live (some edited.cleanup))
      = edited.value := by
    cases pruned : edited.cleanup.isPruned with
    | true =>
      have empty : edited.cleanup.vout = [] := edited.clean_cleanup.vout_eq_nil_iff.mpr pruned
      rw [live_pruned pruned, ← value_cleanup, CCoins.value, empty]
      rfl
    | false =>
      rw [live_eq_self pruned, ← value_cleanup]
      rfl
  rw [edit, value, FiniteMap.total_put, before, after, value]

end CoinsMap

end Resistance.Coins

import Resistance.Coins.View

/-! `UpdateCoins` and `ApplyTxInUndo` of `main.cpp`, with the undo data of `undo.h`: what a
transaction does to the unspent outputs, and how its inputs are restored.
-/

namespace Resistance.Validation

open List Primitives Consensus Coins Lib Lib.Checks CCoins CoinsMap

/-- The output that an input spent. If it was the last unspent one of its transaction, the
height is not zero and the other fields tell the rest about the transaction.
-/
structure CTxInUndo where
  txout : CTxOut := {}
  fCoinBase : Bool := false
  nHeight : Int := 0
  nVersion : Int32 := 0
  deriving DecidableEq

structure CTxUndo where
  vprevout : List CTxInUndo := []
  deriving DecidableEq

structure CBlockUndo where
  vtxundo : List CTxUndo := []
  oldSproutTreeRoot : Uint256 := .null
  deriving DecidableEq

/-- Mark an outpoint spent, and construct undo information. -/
def spendInput (coins : CoinsMap) (prevout : COutPoint)
    : Except Failure (CoinsMap × CTxInUndo) :=
  let entry := coins.getOrClear prevout.hash
  match entry.vout[prevout.n.toNat]?, entry.spend prevout.n with
  | some txout, some spent =>
    let undo : CTxInUndo :=
      if spent.vout = [] then {
        txout
        fCoinBase := spent.fCoinBase
        nHeight := spent.nHeight
        nVersion := spent.nVersion }
      else { txout }
    pure (coins.edit prevout.hash spent, undo)
  | _, _ => .error (.assertion "false")

def spendInputs : CoinsMap → List CTxIn → Except Failure (CoinsMap × List CTxInUndo)
  | coins, [] => pure (coins, [])
  | coins, txin :: vin => do
    let (coins, undo) ← spendInput coins txin.prevout
    let (coins, vprevout) ← spendInputs coins vin
    return (coins, undo :: vprevout)

/-- The inputs that spend outputs: those of a coinbase do not. -/
def spendingInputs (tx : CTransaction) : List CTxIn := if tx.isCoinBase then [] else tx.vin

/-- `UpdateCoins`: the view after the transaction, and its undo data. -/
def updateCoins (tx : CTransaction) (inputs : ViewState) (nHeight : Int)
    : Except Failure (ViewState × CTxUndo) := do
  let (coins, vprevout) ← spendInputs inputs.coins (spendingInputs tx)
  let inputs := inputs.setNullifiers tx true
  return ({ inputs with coins := coins.edit tx.getHash (.fromTx tx nHeight) }, { vprevout })

/-- `vout.resize(out.n+1)` if it is shorter, then `vout[out.n] = txout`. -/
def setOutput (coins : CCoins) (n : Nat) (txout : CTxOut) : CCoins :=
  { coins with vout := (coins.vout.rightpad (n + 1) {}).set n txout }

/-- `ApplyTxInUndo`: the coins with the output restored, and whether they were as expected. -/
def applyTxInUndo (undo : CTxInUndo) (coins : CoinsMap) (out : COutPoint) : CoinsMap × Bool :=
  let entry := coins.getOrClear out.hash
  let fClean := if undo.nHeight ≠ 0 then entry.isPruned else !entry.isPruned
  let entry : CCoins :=
    -- undo data contains height: this is the last output of the prevout tx being spent
    if undo.nHeight ≠ 0 then {
      fCoinBase := undo.fCoinBase
      nHeight := undo.nHeight
      nVersion := undo.nVersion }
    else entry
  let fClean := fClean && !entry.isAvailable out.n
  (coins.edit out.hash (setOutput entry out.n.toNat undo.txout), fClean)

/-- The loop of `DisconnectBlock` that restores inputs, the last one first. -/
def applyTxUndo : List (CTxIn × CTxInUndo) → CoinsMap → CoinsMap × Bool
  | [], coins => (coins, true)
  | (txin, undo) :: rest, coins =>
    let (coins, restClean) := applyTxUndo rest coins
    let (coins, fClean) := applyTxInUndo undo coins txin.prevout
    (coins, restClean && fClean)

/-- The undo data of an output, given what stays unspent of its transaction. -/
noncomputable def undoFor (rest : Nat → Option Unspent) (found : Unspent) : CTxInUndo :=
  open Classical in
  if ∀ n, rest n = none then {
    txout := found.txout
    fCoinBase := found.fCoinBase
    nHeight := found.nHeight
    nVersion := found.nVersion }
  else { txout := found.txout }

/-- An unspent output is taken out of the coins. -/
structure Spends (coins : CoinsMap) (prevout : COutPoint) (found : Unspent)
    (after : CoinsMap) : Prop where
  there : coins.utxo prevout.hash prevout.n.toNat = some found
  utxo : ∀ txid n, after.utxo txid n
    = if txid = prevout.hash ∧ n = prevout.n.toNat then none else coins.utxo txid n
  tidy : ∀ txid, coins.TidyAt txid → after.TidyAt txid
  value : after.value = coins.value - found.txout.nValue.toInt

theorem spendInput_ok {coins after prevout undo}
    (run : spendInput coins prevout = .ok (after, undo))
    : ∃ found, Spends coins prevout found after
        ∧ undo = undoFor (after.utxo prevout.hash) found := by
  simp only [spendInput] at run
  split at run
  next txout spent output spend =>
    obtain ⟨rfl, rfl⟩ := Prod.mk.inj (Except.ok.inj run)
    obtain ⟨available, shape⟩ := isAvailable_of_spend spend
    obtain ⟨found, there⟩ := Option.isSome_iff_exists.mp (isAvailable_iff.mp available)
    obtain ⟨same, _, coinbase, height, version⟩ := unspent_eq_some_iff.mp there
    obtain rfl : txout = found.txout := Option.some.inj (output.symm.trans same)
    refine ⟨found, ⟨?_, fun txid n => ?_, fun txid tidy => ?_, ?_⟩, ?_⟩
    · rw [← there, unspent_getOrClear]
    · rw [utxo_edit, unspent_spend spend, unspent_getOrClear]
      by_cases same : txid = prevout.hash <;> simp [same]
    · exact tidy.edit fun here => here.getOrClear.2.spend spend
    · rw [value_edit, value_spend spend there]
      omega
    have last : spent.vout = []
        ↔ ∀ n, (coins.edit prevout.hash spent).utxo prevout.hash n = none := by
      rw [shape, cleanup_vout_eq_nil_iff, isPruned_iff]
      simp [utxo_edit]
    by_cases empty : spent.vout = []
    · rw [undoFor, if_pos empty, if_pos (last.mp empty), ← coinbase, ← height, ← version, shape]
      rfl
    · rw [undoFor, if_neg empty, if_neg (mt last.mpr empty)]
  · cases run

/-- The outputs that inputs refer to are taken out of the coins, one after the other. -/
inductive SpendsAll : CoinsMap → List CTxIn → List CTxInUndo → CoinsMap → Prop
  | nil (coins) : SpendsAll coins [] [] coins
  | cons {coins middle after txin vin vprevout found}
    (first : Spends coins txin.prevout found middle) (rest : SpendsAll middle vin vprevout after)
    : SpendsAll coins (txin :: vin)
        (undoFor (middle.utxo txin.prevout.hash) found :: vprevout) after

variable {txid : Uint256} {n : Nat} {coins after : CoinsMap} {vin : List CTxIn}
  {vprevout : List CTxInUndo}

theorem spendInputs_ok (run : spendInputs coins vin = .ok (after, vprevout))
    : SpendsAll coins vin vprevout after := by
  induction vin generalizing coins vprevout with
  | nil =>
    obtain ⟨rfl, rfl⟩ := Prod.mk.inj (Except.ok.inj run)
    exact .nil coins
  | cons txin vin ih =>
    simp only [spendInputs, bind_ok, Prod.exists] at run
    obtain ⟨middle, undo, first, last, later, rest, rfl, rfl⟩ := run
    obtain ⟨found, spends, rfl⟩ := spendInput_ok first
    exact .cons spends (ih rest)

namespace Spends

variable {prevout : COutPoint} {found : Unspent}

/-- Spending takes outputs away and changes none. -/
theorem utxo_of_utxo {other} (spends : Spends coins prevout found after)
    (left : after.utxo txid n = some other)
    : coins.utxo txid n = some other := by
  rw [spends.utxo] at left
  split at left
  · cases left
  · exact left

end Spends

namespace SpendsAll

section

variable (spends : SpendsAll coins vin vprevout after)
include spends

theorem utxo_of_utxo {other} (left : after.utxo txid n = some other)
    : coins.utxo txid n = some other := by
  induction spends with
  | nil => exact left
  | cons first _ ih => exact first.utxo_of_utxo (ih left)

theorem tidy (tidy : coins.TidyAt txid)
    : after.TidyAt txid := by
  induction spends with
  | nil => exact tidy
  | cons first _ ih => exact ih (first.tidy txid tidy)

theorem utxo_eq_none (free : coins.utxo txid n = none)
    : after.utxo txid n = none := by
  cases left : after.utxo txid n with
  | none => rfl
  | some other =>
    rw [spends.utxo_of_utxo left] at free
    cases free

/-- Every input refers to an unspent output, which is spent then. -/
theorem spent {txin} (mem : txin ∈ vin)
    : (∃ found, coins.utxo txin.prevout.hash txin.prevout.n.toNat = some found)
      ∧ after.utxo txin.prevout.hash txin.prevout.n.toNat = none := by
  induction spends with
  | nil => cases mem
  | cons first rest ih =>
    rcases mem_cons.mp mem with rfl | below
    · refine ⟨⟨_, first.there⟩, rest.utxo_eq_none ?_⟩
      rw [first.utxo, if_pos ⟨rfl, rfl⟩]
    · obtain ⟨⟨found, there⟩, gone⟩ := ih below
      exact ⟨⟨found, first.utxo_of_utxo there⟩, gone⟩

/-- Other outputs stay. -/
theorem utxo_of_not_mem
    (other : ∀ txin ∈ vin, ¬ (txid = txin.prevout.hash ∧ n = txin.prevout.n.toNat))
    : after.utxo txid n = coins.utxo txid n := by
  induction spends with
  | nil => rfl
  | cons first rest ih =>
    rw [ih fun txin mem => other txin (mem_cons_of_mem _ mem), first.utxo,
      if_neg (other _ mem_cons_self)]

theorem length_eq
    : vprevout.length = vin.length := by
  induction spends with
  | nil => rfl
  | cons _ _ ih => rw [length_cons, length_cons, ih]

/-- Spending takes the values of the outputs out of the coins. -/
theorem value
    : after.value = coins.value - (vin.map fun txin => coins.valueAt txin.prevout).sum := by
  induction spends with
  | nil => simp
  | @cons coins middle after txin vin vprevout found first rest ih =>
    have kept : (vin.map fun txin => middle.valueAt txin.prevout)
        = vin.map fun txin => coins.valueAt txin.prevout := by
      refine map_congr_left fun other mem => ?_
      obtain ⟨⟨unspent, there⟩, _⟩ := rest.spent mem
      simp only [valueAt, there, first.utxo_of_utxo there]
    have taken : coins.valueAt txin.prevout = found.txout.nValue.toInt := by
      simp only [valueAt, first.there, Option.elim_some]
    have step := first.value
    simp only [map_cons, sum_cons]
    rw [ih, kept]
    omega

end

end SpendsAll

/-- `UpdateCoins` as a relation. -/
structure Updates (nHeight : Int) (inputs : ViewState) (tx : CTransaction) (txundo : CTxUndo)
    (spent : CoinsMap) (outputs : ViewState) : Prop where
  spends : SpendsAll inputs.coins (spendingInputs tx) txundo.vprevout spent
  outputs : outputs = { inputs.setNullifiers tx true with
    coins := spent.edit tx.getHash (.fromTx tx nHeight) }

theorem updateCoins_ok {tx inputs outputs nHeight txundo}
    (run : updateCoins tx inputs nHeight = .ok (outputs, txundo))
    : ∃ spent, Updates nHeight inputs tx txundo spent outputs := by
  simp only [updateCoins, bind_ok, Prod.exists] at run
  obtain ⟨spent, vprevout, spends, rfl, rfl⟩ := run
  exact ⟨spent, spendInputs_ok spends, rfl⟩

/-- A transaction leaves its own outputs under its id, and elsewhere what it did not spend. -/
theorem Updates.utxo {nHeight before after tx txundo spent}
    (updates : Updates nHeight before tx txundo spent after) (txid : Uint256) (n : Nat)
    : after.coins.utxo txid n = if txid = tx.getHash then (fromTx tx nHeight).unspent n
      else spent.utxo txid n := by
  rw [updates.outputs, utxo_edit]

theorem unspent_setOutput (coins : CCoins) {txout} (notNull : txout.isNull = false) (m : Nat)
    : (setOutput coins n txout).unspent m
      = if m = n then some (coins.describe txout) else coins.unspent m := by
  have long : n < (coins.vout.rightpad (n + 1) {}).length := by
    rw [rightpad, length_append, length_replicate]
    omega
  split
  next same =>
    subst same
    refine unspent_eq_some_iff.mpr ⟨?_, notNull, rfl, rfl, rfl⟩
    rw [setOutput, getElem?_set_self long, describe]
  next other =>
    simp only [setOutput, unspent, getElem?_set_ne (Ne.symm other)]
    rcases Nat.lt_or_ge m coins.vout.length with inside | outside
    · rw [rightpad, getElem?_append_left inside]
      rfl
    rw [rightpad, getElem?_append_right outside, getElem?_eq_none outside]
    cases pad : (replicate _ _)[m - coins.vout.length]? with
    | none => rfl
    | some out =>
      obtain rfl := eq_of_mem_replicate (mem_of_getElem? pad)
      rfl

/-- The restored output is one of the transaction that the undo data or the coins tell of;
other transactions keep their outputs.
-/
theorem utxo_applyTxInUndo_ne (undo : CTxInUndo) (coins : CoinsMap) {out} (other : txid ≠ out.hash)
    (n : Nat)
    : (applyTxInUndo undo coins out).1.utxo txid n = coins.utxo txid n := by
  rw [applyTxInUndo, utxo_edit, if_neg other]

theorem utxo_applyTxUndo_ne {inputs} (other : ∀ input ∈ inputs, txid ≠ input.1.prevout.hash)
    (coins : CoinsMap) (n : Nat)
    : (applyTxUndo inputs coins).1.utxo txid n = coins.utxo txid n := by
  induction inputs with
  | nil => rfl
  | cons input inputs ih =>
    rw [applyTxUndo, utxo_applyTxInUndo_ne _ _ (other input mem_cons_self)]
    exact ih fun later mem => other later (mem_cons_of_mem _ mem)

/-- Undo data restores the output for which it was made. -/
theorem applyTxInUndo_ok (coins : CoinsMap) (out : COutPoint) {found}
    (notNull : found.txout.isNull = false) (aged : found.nHeight ≠ 0)
    (free : coins.utxo out.hash out.n.toNat = none)
    (coherent : ∀ n other, coins.utxo out.hash n = some other → other.SameTx found)
    : (applyTxInUndo (undoFor (coins.utxo out.hash) found) coins out).2 = true
      ∧ ∀ txid n, (applyTxInUndo (undoFor (coins.utxo out.hash) found) coins out).1.utxo txid n
        = if txid = out.hash ∧ n = out.n.toNat then some found else coins.utxo txid n := by
  by_cases last : ∀ n, coins.utxo out.hash n = none
  · have pruned : (coins.getOrClear out.hash).isPruned = true :=
      isPruned_iff.mpr fun n => by rw [unspent_getOrClear, last]
    rw [undoFor, if_pos last]
    refine ⟨?_, fun txid n => ?_⟩
    · simp [applyTxInUndo, aged, pruned, isAvailable]
    simp only [applyTxInUndo, if_pos aged, utxo_edit, unspent_setOutput _ notNull]
    by_cases here : txid = out.hash
    · subst here
      rw [last]
      by_cases same : n = out.n.toNat
      · simp [same, describe]
      · simp [same, unspent]
    · simp [here]
  · have some' : (coins.getOrClear out.hash).isPruned = false := by
      rw [Bool.eq_false_iff]
      intro pruned
      refine last fun n => ?_
      rw [← unspent_getOrClear, isPruned_iff.mp pruned]
    obtain ⟨m, present⟩ := not_forall.mp last
    obtain ⟨other, present⟩ := Option.ne_none_iff_exists'.mp present
    obtain ⟨coinbase, height, version⟩ := coherent m other present
    rw [← unspent_getOrClear, unspent_eq_some_iff] at present
    obtain ⟨_, _, coinbase', height', version'⟩ := present
    have described : (coins.getOrClear out.hash).describe found.txout = found := by
      simp only [describe, coinbase', height', version', coinbase, height, version]
    rw [undoFor, if_neg last]
    refine ⟨?_, fun txid n => ?_⟩
    · have unavailable : (coins.getOrClear out.hash).isAvailable out.n = false := by
        rw [Bool.eq_false_iff, Ne, isAvailable_iff, unspent_getOrClear, free]
        exact Bool.false_ne_true
      simp [applyTxInUndo, some', unavailable]
    · simp only [applyTxInUndo, ne_eq, not_true, if_false, utxo_edit,
        unspent_setOutput _ notNull, unspent_getOrClear, described]
      by_cases here : txid = out.hash <;> simp [here]

theorem blank_setOutput {coins txout} (blank : coins.Blank) (n : Nat)
    (notNull : txout.isNull = false)
    : (setOutput coins n txout).Blank := by
  have padded : CCoins.Blank { coins with vout := coins.vout.rightpad (n + 1) {} } := by
    intro out mem
    rw [rightpad, mem_append] at mem
    rcases mem with old | pad
    · exact blank out old
    · exact fun _ => eq_of_mem_replicate pad
  exact padded.set n fun null => absurd null (by rw [notNull]; exact Bool.false_ne_true)

/-- The coins have the same unspent outputs, except for transactions that are ignored. -/
def AgreeOff (ignored : Uint256 → Prop) (a b : CoinsMap) : Prop :=
  ∀ txid, ¬ ignored txid → ∀ n, a.utxo txid n = b.utxo txid n

/-- No unspent output has height zero. -/
def Aged (coins : CoinsMap) : Prop :=
  ∀ txid n found, coins.utxo txid n = some found → found.nHeight ≠ 0

/-- Coins to which outputs are restored, and whether that was clean, compared with the coins
before the outputs were spent.
-/
structure Restores (ignored : Uint256 → Prop) (restored : CoinsMap) (result : CoinsMap × Bool)
    (coins : CoinsMap) : Prop where
  agree : AgreeOff ignored result.1 coins
  tidy : ∀ txid, restored.TidyAt txid → result.1.TidyAt txid

/-- Restoring an output undoes its spending. -/
theorem Spends.restore {ignored restored prevout found} (spends : Spends coins prevout found after)
    (aged : Aged coins) (agree : AgreeOff ignored restored after)
    : Restores ignored restored
        (applyTxInUndo (undoFor (after.utxo prevout.hash) found) restored prevout) coins
      ∧ (¬ ignored prevout.hash →
        (applyTxInUndo (undoFor (after.utxo prevout.hash) found) restored prevout).2 = true) := by
  obtain ⟨_, notNull, _⟩ := unspent_eq_some_iff.mp
    ((unspent_getOrClear ..).trans spends.there)
  have tidy : ∀ txid, restored.TidyAt txid →
      (applyTxInUndo (undoFor (after.utxo prevout.hash) found) restored prevout).1.TidyAt txid := by
    intro txid before
    refine before.edit fun here =>
      blank_setOutput ?_ _ (by unfold undoFor; split <;> exact notNull)
    split
    · exact nofun
    · exact here.getOrClear.2
  by_cases known : ignored prevout.hash
  · refine ⟨⟨fun txid regarded n => ?_, tidy⟩, fun regarded => absurd known regarded⟩
    have other : txid ≠ prevout.hash := by
      rintro rfl
      exact regarded known
    rw [utxo_applyTxInUndo_ne _ _ other, agree txid regarded, spends.utxo,
      if_neg fun same => other same.1]
  · have here : restored.utxo prevout.hash = after.utxo prevout.hash :=
      funext (agree prevout.hash known)
    have free : restored.utxo prevout.hash prevout.n.toNat = none := by
      rw [here, spends.utxo, if_pos ⟨rfl, rfl⟩]
    obtain ⟨clean, utxo⟩ := applyTxInUndo_ok restored prevout notNull
      (aged _ _ _ spends.there) free (by
        intro n other there
        rw [here] at there
        exact utxo_coherent (spends.utxo_of_utxo there) spends.there)
    rw [here] at clean utxo
    refine ⟨⟨fun txid regarded n => ?_, tidy⟩, fun _ => clean⟩
    rw [utxo, agree txid regarded, spends.utxo]
    split
    next same =>
      obtain ⟨rfl, rfl⟩ := same
      exact spends.there.symm
    · rfl

/-- Restoring all outputs, the last one first, undoes their spending. -/
theorem SpendsAll.restore {ignored restored} (spends : SpendsAll coins vin vprevout after)
    (aged : Aged coins) (agree : AgreeOff ignored restored after)
    : Restores ignored restored (applyTxUndo (vin.zip vprevout) restored) coins
      ∧ ((∀ txin ∈ vin, ¬ ignored txin.prevout.hash) →
        (applyTxUndo (vin.zip vprevout) restored).2 = true) := by
  induction spends with
  | nil => exact ⟨⟨agree, fun _ tidy => tidy⟩, fun _ => rfl⟩
  | cons first rest ih =>
    have younger : Aged _ := fun txid n found there => aged txid n found
      (first.utxo_of_utxo there)
    obtain ⟨restRestores, cleanRest⟩ := ih younger agree
    obtain ⟨firstRestores, cleanFirst⟩ := first.restore aged restRestores.agree
    refine ⟨⟨firstRestores.agree, fun txid tidy => ?_⟩, fun regarded => ?_⟩
    · exact firstRestores.tidy txid (restRestores.tidy txid tidy)
    · rw [zip_cons_cons, applyTxUndo, Bool.and_eq_true]
      exact ⟨cleanRest fun txin mem => regarded txin (mem_cons_of_mem _ mem),
        cleanFirst (regarded _ mem_cons_self)⟩

end Resistance.Validation

import Resistance.Wallet.CreateTransaction
import Resistance.Wallet.Selected

/-! Inputs minus outputs of a created transaction are the fee, and only recipients that pay
the fee get less than what was asked for.
-/

namespace Resistance.Wallet

open List Primitives Consensus Policy Mining Lib Lib.Checks MachineInt Int64 Int

/-! What is asked for and what is paid. -/

/-- The sum of the amounts that are asked for. -/
def requested (vecSend : List CRecipient) : Int :=
  (vecSend.map fun recipient => recipient.nAmount.toInt).sum

/-- The sum of the values of outputs. -/
def sumOut (vout : List CTxOut) : Int := (vout.map fun txout => txout.nValue.toInt).sum

/-- How many recipients pay the fee. -/
def payers (vecSend : List CRecipient) : Nat :=
  vecSend.countP fun recipient => recipient.fSubtractFeeFromAmount

/-- Every recipient has an output, with the exact amount unless it pays the fee. -/
def PaysEach (vecSend : List CRecipient) (paid : List CTxOut) : Prop :=
  List.Forall₂ (fun recipient txout => txout.scriptPubKey = recipient.scriptPubKey
    ∧ (recipient.fSubtractFeeFromAmount = false → txout.nValue = recipient.nAmount)) vecSend paid

/-- The outputs with change inserted. -/
def withChange (paid : List CTxOut) : Option (Nat × CTxOut) → List CTxOut
  | none => paid
  | some (position, change) => paid.insertIdx position change

/-- The outputs of recipients who together get less than they asked for. -/
structure Paid (vecSend : List CRecipient) (paid : List CTxOut) (taken : Int) : Prop where
  each : PaysEach vecSend paid
  sum : sumOut paid = requested vecSend - taken
  nonneg : ∀ txout ∈ paid, 0 ≤ txout.nValue.toInt

variable {vecSend : List CRecipient}

@[simp] theorem requested_cons (recipient : CRecipient)
    : requested (recipient :: vecSend) = recipient.nAmount.toInt + requested vecSend := by
  simp [requested]

@[simp] theorem sumOut_cons (txout : CTxOut) (vout : List CTxOut)
    : sumOut (txout :: vout) = txout.nValue.toInt + sumOut vout := by
  simp [sumOut]

variable {vout : List CTxOut} {nValue nFeeRet : CAmount} {count : UInt32} {policy : FeePolicy}
  {taken : Int} {outputs : Outputs} {wallet : CWallet} {sign : Bool} {txNew : CMutableTransaction}

theorem sumOut_insertIdx {position} (bound : position ≤ vout.length) (change : CTxOut)
    : sumOut (vout.insertIdx position change) = change.nValue.toInt + sumOut vout := by
  have same := (perm_insertIdx change vout bound).map fun txout => txout.nValue.toInt
  rw [sumOut, same.sum_eq, map_cons, sum_cons, sumOut]

variable {before : UInt32} {chance : Chance} {nChange : CAmount} {coins setCoins : List Coin}
  {signed : CMutableTransaction} {maxTxSize : Nat}

theorem sumRecipients_nonneg {start after}
    (run : sumRecipients vecSend start before = .ok (nValue, after))
    : ∀ recipient ∈ vecSend, 0 ≤ recipient.nAmount.toInt := by
  induction vecSend generalizing start before with
  | nil => exact nofun
  | cons recipient vecSend ih =>
    obtain ⟨_, checked, rest⟩ := bind_ok.mp run
    rw [throwIf_ok, not_or, Int64.not_lt, Int64.not_lt] at checked
    refine forall_mem_cons.mpr ⟨?_, ih rest⟩
    exact le_iff_toInt_le.mp checked.2

theorem requested_nonneg (nonneg : ∀ recipient ∈ vecSend, 0 ≤ recipient.nAmount.toInt)
    : 0 ≤ requested vecSend :=
  sum_nonneg (forall_mem_map.mpr nonneg)

/-- The sum of the recipients' amounts is exact. -/
theorem sumRecipients_ok {start after}
    (run : sumRecipients vecSend start before = .ok (nValue, after)) (low : 0 ≤ start.toInt)
    (room : start.toInt + requested vecSend < 2 ^ 63)
    (count : before.toNat + vecSend.length < 2 ^ 32)
    : nValue.toInt = start.toInt + requested vecSend
      ∧ after.toNat = before.toNat + payers vecSend := by
  induction vecSend generalizing start before with
  | nil =>
    cases run
    exact ⟨(add_zero _).symm, rfl⟩
  | cons recipient vecSend ih =>
    obtain ⟨nonneg, others⟩ := forall_mem_cons.mp (sumRecipients_nonneg run)
    have rest := requested_nonneg others
    obtain ⟨_, -, run⟩ := bind_ok.mp run
    rw [requested_cons] at room ⊢
    rw [length_cons] at count
    have added : (start + recipient.nAmount).toInt = start.toInt + recipient.nAmount.toInt :=
      toInt_add ⟨by omega, by omega⟩
    cases flag : recipient.fSubtractFeeFromAmount with
    | false =>
      rw [flag, if_neg Bool.false_ne_true] at run
      obtain ⟨sum, counted⟩ := ih run (by omega) (by omega) (by omega)
      rw [payers, countP_cons_of_neg (by rw [flag]; exact Bool.false_ne_true)]
      exact ⟨by omega, counted⟩
    | true =>
      rw [flag, if_pos rfl] at run
      have next : (before + 1).toNat = before.toNat + 1 := by
        exact Nat.mod_eq_of_lt (by change before.toNat + 1 < _; omega)
      obtain ⟨sum, counted⟩ := ih run (by omega) (by omega) (by omega)
      rw [payers, countP_cons_of_pos (by exact flag)]
      rw [payers] at counted
      exact ⟨by omega, by omega⟩

/-! The fee is taken from those who pay it. -/

/-- What the payers among some recipients pay of a fee. -/
def share (nFeeRet : Int) (count : Nat) (fFirst : Bool) (vecSend : List CRecipient) : Int :=
  payers vecSend * (nFeeRet / count) + if fFirst ∧ payers vecSend ≠ 0 then nFeeRet % count else 0

/-- The payers together pay the whole fee. -/
theorem share_all (nFeeRet : Int) {count} (all : payers vecSend = count)
    : share nFeeRet count true vecSend = if count = 0 then 0 else nFeeRet := by
  rw [share, all]
  by_cases none : count = 0
  · rw [none]
    simp
  · rw [if_neg none, if_pos ⟨rfl, none⟩]
    exact mul_ediv_add_emod nFeeRet count

theorem payee_value {recipient} (fFirst : Bool) (fee : 0 ≤ nFeeRet.toInt)
    (amount : 0 ≤ recipient.nAmount.toInt) (pos : 0 < count.toNat)
    (flag : recipient.fSubtractFeeFromAmount = true)
    : (payee nFeeRet count fFirst recipient).nValue.toInt = recipient.nAmount.toInt
        - nFeeRet.toInt / count.toNat - if fFirst then nFeeRet.toInt % count.toNat else 0 := by
  have divisor : (ofInt count.toNat).toInt = count.toNat := by
    have bound := count.toNat_lt
    exact toInt_ofInt ⟨by omega, by omega⟩
  have quotient : (nFeeRet / ofInt count.toNat).toInt = nFeeRet.toInt / count.toNat := by
    rw [toInt_div fee (by omega), divisor]
  have remainder : (nFeeRet % ofInt count.toNat).toInt = nFeeRet.toInt % count.toNat := by
    rw [toInt_mod fee, divisor]
  -- Quotient and remainder together do not exceed the fee.
  have parts := mul_ediv_add_emod nFeeRet.toInt count.toNat
  have low : 0 ≤ nFeeRet.toInt / count.toNat := ediv_nonneg fee (by omega)
  have rest : 0 ≤ nFeeRet.toInt % count.toNat := emod_nonneg _ (by omega)
  have most : nFeeRet.toInt / count.toNat ≤ count.toNat * (nFeeRet.toInt / count.toNat) :=
    le_mul_of_one_le_left low (by omega)
  have high := nFeeRet.toInt_lt
  have upper := recipient.nAmount.toInt_lt
  have first : (recipient.nAmount - nFeeRet / ofInt count.toNat).toInt
      = recipient.nAmount.toInt - nFeeRet.toInt / count.toNat := by
    rw [← quotient]
    exact toInt_sub ⟨by rw [quotient]; omega, by rw [quotient]; omega⟩
  rw [payee, flag]
  rw [if_pos rfl]
  cases fFirst with
  | false =>
    rw [if_neg Bool.false_ne_true, if_neg Bool.false_ne_true, first, sub_zero]
  | true =>
    rw [← remainder, ← first]
    exact toInt_sub
      ⟨by rw [first]; omega, by rw [first]; omega⟩

/-- The outputs to the payees: the payers share the fee. -/
theorem payees_ok {fFirst} (fee : 0 ≤ nFeeRet.toInt)
    (amounts : ∀ recipient ∈ vecSend, 0 ≤ recipient.nAmount.toInt)
    (pos : payers vecSend ≠ 0 → 0 < count.toNat)
    (run : payees policy.minRelayTxFee nFeeRet count fFirst vecSend = .ok vout)
    : Paid vecSend vout (share nFeeRet.toInt count.toNat fFirst vecSend) := by
  induction vecSend generalizing fFirst vout with
  | nil =>
    cases run
    refine ⟨.nil, ?_, nofun⟩
    simp [share, payers, sumOut, requested]
  | cons recipient vecSend ih =>
    obtain ⟨amount, others⟩ := forall_mem_cons.mp amounts
    obtain ⟨_, notDust, run⟩ := bind_ok.mp run
    obtain ⟨rest, tail, result⟩ := bind_ok.mp run
    cases result
    rw [throwIf_ok, Bool.not_eq_true] at notDust
    have nonneg := nonneg_of_not_dust policy.relay_parsed notDust
    cases flag : recipient.fSubtractFeeFromAmount with
    | false =>
      have same : payers (recipient :: vecSend) = payers vecSend :=
        countP_cons_of_neg (by rw [flag]; exact Bool.false_ne_true)
      have value : (payee nFeeRet count fFirst recipient).nValue = recipient.nAmount := by
        rw [payee, flag]
        rfl
      rw [flag, Bool.not_false, Bool.and_true] at tail
      have paid := ih others (same ▸ pos) tail
      refine ⟨.cons ⟨rfl, fun _ => value⟩ paid.each, ?_, forall_mem_cons.mpr ⟨nonneg, paid.nonneg⟩⟩
      rw [sumOut_cons, requested_cons, value, paid.sum, share, share, same]
      omega
    | true =>
      have more : payers (recipient :: vecSend) = payers vecSend + 1 := countP_cons_of_pos flag
      have some : 0 < count.toNat := pos (by omega)
      have value := payee_value fFirst fee amount some flag
      rw [flag] at tail
      have paid := ih others (fun _ => some) tail
      refine ⟨.cons ⟨rfl, fun absurd => ?_⟩ paid.each, ?_,
        forall_mem_cons.mpr ⟨nonneg, paid.nonneg⟩⟩
      · rw [flag] at absurd
        cases absurd
      rw [sumOut_cons, value, paid.sum, share, share, more, Nat.cast_succ, add_mul]
      cases fFirst with
      | false =>
        simp
        omega
      | true =>
        simp
        omega

/-! Change. -/

/-- Dust is taken from the first payer. -/
theorem deductDust_ok {nDust after} (paid : Paid vecSend vout taken) (dust : 0 ≤ nDust.toInt)
    (some : payers vecSend ≠ 0)
    (run : deductDust policy.minRelayTxFee nDust vecSend vout = .ok after)
    : Paid vecSend after (taken + nDust.toInt) := by
  obtain ⟨each, sum, nonneg⟩ := paid
  induction each generalizing after taken with
  | nil => exact absurd rfl some
  | @cons recipient txout vecSend vout first rest ih =>
    rw [sumOut_cons, requested_cons] at sum
    obtain ⟨low, others⟩ := forall_mem_cons.mp nonneg
    rw [deductDust] at run
    split at run
    next flag =>
      obtain ⟨_, notDust, result⟩ := bind_ok.mp run
      cases result
      rw [throwIf_ok, Bool.not_eq_true] at notDust
      have value : (txout.nValue - nDust).toInt = txout.nValue.toInt - nDust.toInt := by
        have high := nDust.toInt_lt
        have upper := txout.nValue.toInt_lt
        exact toInt_sub ⟨by omega, by omega⟩
      refine ⟨.cons ⟨first.1, fun absurd => ?_⟩ rest, ?_,
        forall_mem_cons.mpr ⟨nonneg_of_not_dust policy.relay_parsed notDust, others⟩⟩
      · rw [flag] at absurd
        cases absurd
      · rw [sumOut_cons, requested_cons, value]
        omega
    next flag =>
      obtain ⟨tail, others', result⟩ := bind_ok.mp run
      cases result
      have same : payers (recipient :: vecSend) = payers vecSend := countP_cons_of_neg flag
      have exact_ := first.2 (Bool.not_eq_true _ ▸ flag)
      have left : sumOut vout = requested vecSend - taken := by
        rw [exact_] at sum
        omega
      have deducted := ih (same ▸ some) others' left others
      refine ⟨.cons first deducted.each, ?_, forall_mem_cons.mpr ⟨low, deducted.nonneg⟩⟩
      rw [sumOut_cons, requested_cons, deducted.sum]
      omega

/-- The change as it is raised: a payer pays for it. -/
theorem raiseChange_ok {newTxOut change paid} (before : Paid vecSend vout taken)
    (pos : 0 < newTxOut.nValue.toInt) (payer : count ≠ 0 → payers vecSend ≠ 0)
    (run : raiseChange policy.minRelayTxFee vecSend count newTxOut vout = .ok (change, paid))
    : ∃ raised : Int, Paid vecSend paid (taken + raised) ∧ 0 ≤ raised
      ∧ change.nValue.toInt = newTxOut.nValue.toInt + raised
      ∧ (raised ≠ 0 → count ≠ 0 ∧ change.nValue = getDustThreshold policy.minRelayTxFee change)
      ∧ (count ≠ 0 → isDust policy.minRelayTxFee change = false) := by
  have notZero : count > 0 ↔ count ≠ 0 := by
    rw [ne_eq, ← UInt32.toNat_inj]
    exact Nat.pos_iff_ne_zero
  rw [raiseChange] at run
  split at run
  next raises =>
    obtain ⟨some, dust⟩ := raises
    obtain ⟨after, deducted, result⟩ := bind_ok.mp run
    cases result
    rw [isDust, decide_eq_true_eq, lt_iff_toInt_lt] at dust
    generalize isThreshold : getDustThreshold policy.minRelayTxFee newTxOut = threshold at *
    have high := threshold.toInt_lt
    have difference : (threshold - newTxOut.nValue).toInt
        = threshold.toInt - newTxOut.nValue.toInt :=
      toInt_sub ⟨by omega, by omega⟩
    have raised : newTxOut.nValue + (threshold - newTxOut.nValue) = threshold := by
      rw [Int64.add_comm, Int64.sub_add_cancel]
    have same : getDustThreshold policy.minRelayTxFee
        { newTxOut with nValue := newTxOut.nValue + (threshold - newTxOut.nValue) }
        = threshold := by
      rw [← isThreshold]
      exact getDustThreshold_congr _ rfl
    have atThreshold := raised.trans same.symm
    refine ⟨(threshold - newTxOut.nValue).toInt,
      deductDust_ok before (by omega) (payer (notZero.mp some)) deducted, by omega, ?_,
      fun _ => ⟨notZero.mp some, atThreshold⟩, fun _ => not_dust_of_threshold atThreshold⟩
    dsimp only
    rw [raised]
    omega
  next stays =>
    cases run
    refine ⟨0, ?_, le_refl 0, (add_zero _).symm, fun absurd => (absurd rfl).elim, fun some => ?_⟩
    · rw [add_zero]
      exact before
    · rw [not_and, notZero] at stays
      exact Bool.not_eq_true _ ▸ stays some

/-- Change that is dust is added to the fee as it is, and is too small to overflow there. -/
theorem le_makeChange {scriptChange} (fee : 0 ≤ nFeeRet.toInt) (most : nFeeRet.toInt ≤ 10 ^ 18)
    (run : makeChange policy.minRelayTxFee chance vecSend count scriptChange nChange nFeeRet vout
      = .ok outputs)
    : nFeeRet.toInt ≤ outputs.nFeeRet.toInt := by
  rw [makeChange] at run
  split at run
  next pos =>
    obtain ⟨⟨change, after⟩, raise, rest⟩ := bind_ok.mp run
    dsimp only at rest
    split at rest
    next dust =>
      cases rest
      rw [raiseChange] at raise
      split at raise
      next =>
        obtain ⟨_, -, result⟩ := bind_ok.mp raise
        cases result
        rw [not_dust_of_threshold] at dust
        · cases dust
        · dsimp only
          rw [Int64.add_comm, Int64.sub_add_cancel]
          exact getDustThreshold_congr _ rfl
      next =>
        cases raise
        rw [isDust, decide_eq_true_eq, lt_iff_toInt_lt] at dust
        rw [gt_iff_lt, lt_iff_toInt_lt, toInt_zero] at pos
        have small := (getDustThreshold_range policy.relay_parsed
          { nValue := nChange, scriptPubKey := scriptChange }).2
        dsimp only at dust ⊢
        have sum : (nFeeRet + nChange).toInt = nFeeRet.toInt + nChange.toInt :=
          toInt_add ⟨by omega, by omega⟩
        omega
    next =>
      cases rest
      exact le_refl _
  next =>
    cases run
    exact le_refl _

/-- How change is made: it is added to the fee, or is an output. A payer pays what it is raised
by.
-/
inductive ChangeMade (policy : FeePolicy) (vecSend : List CRecipient) (count : UInt32)
    (nChange nFeeRet : CAmount) (taken : Int) (outputs : Outputs) : Prop where
  | toFee (paid : Paid vecSend outputs.vout taken) (noChange : outputs.nChangePosRet = .none)
      (fee : outputs.nFeeRet.toInt = nFeeRet.toInt + nChange.toInt)
      (alone : nChange.toInt ≠ 0 → count = 0)
  | output (paid : List CTxOut) (position : Nat) (change : CTxOut) (raised : Int)
      (payments : Paid vecSend paid (taken + raised)) (nonneg : 0 ≤ raised)
      (isRaised : raised ≠ 0
        → count ≠ 0 ∧ change.nValue = getDustThreshold policy.minRelayTxFee change)
      (vout : outputs.vout = paid.insertIdx position change)
      (inside : position ≤ paid.length) (isPosition : outputs.nChangePosRet = some position)
      (value : change.nValue.toInt = nChange.toInt + raised)
      (fee : outputs.nFeeRet = nFeeRet)

theorem makeChange_ok {scriptChange} (paid : Paid vecSend vout taken) (nonneg : 0 ≤ nChange.toInt)
    (payer : count ≠ 0 → payers vecSend ≠ 0) (fee : 0 ≤ nFeeRet.toInt)
    (room : count = 0 → nFeeRet.toInt + nChange.toInt < 2 ^ 63)
    (run : makeChange policy.minRelayTxFee chance vecSend count scriptChange nChange nFeeRet vout
      = .ok outputs)
    : ChangeMade policy vecSend count nChange nFeeRet taken outputs := by
  rw [makeChange] at run
  split at run
  next pos =>
    have pos : 0 < nChange.toInt := lt_iff_toInt_lt.mp pos
    obtain ⟨⟨change, after⟩, raise, rest⟩ := bind_ok.mp run
    obtain ⟨raised, payments, low, value, isRaised, notDust⟩ := raiseChange_ok paid pos payer raise
    dsimp only at rest
    split at rest
    next dust =>
      cases rest
      have none : count = 0 := by
        by_contra some
        rw [notDust some] at dust
        cases dust
      have zero : raised = 0 := by
        by_contra notZero
        exact (isRaised notZero).1 none
      rw [zero, add_zero] at payments
      have fits := room none
      exact .toFee payments rfl (toInt_add ⟨by omega, fits⟩) fun _ => none
    next =>
      cases rest
      exact .output after _ change raised payments low isRaised rfl (chance.position_le _) rfl value
        rfl
  next zero =>
    rw [gt_iff_lt, lt_iff_toInt_lt, toInt_zero] at zero
    have zero : nChange.toInt = 0 := by omega
    cases run
    exact .toFee paid rfl (by rw [zero, add_zero]) fun absurd => (absurd zero).elim

/-! Inputs. -/

/-- The value of the output that an input spends. -/
def CWallet.valueOf (wallet : CWallet) (prevout : COutPoint) : Option CAmount := do
  let pcoin ← wallet.mapWallet.find? fun tx => tx.hash = prevout.hash
  let txout ← pcoin.vout[prevout.n.toNat]?
  return txout.nValue

/-- Coins of the wallet are found by their outpoints. -/
theorem CWallet.valueOf_outpoint {coin} (mem : coin ∈ wallet.allCoins)
    : coin.outpoint.n.toNat = coin.2 ∧ wallet.valueOf coin.outpoint = some coin.value := by
  obtain ⟨inside, bound⟩ := CWallet.mem_allCoins.mp mem
  have few := wallet.outputs coin.1 inside
  have small : maxBlockSize < UInt32.size := by decide
  have index : coin.outpoint.n.toNat = coin.2 := UInt32.toNat_ofNat_of_lt' (by omega)
  have found : wallet.mapWallet.find? (fun tx => tx.hash = coin.outpoint.hash) = some coin.1 := by
    obtain ⟨other, isFirst⟩ : ∃ other,
        wallet.mapWallet.find? (fun tx => tx.hash = coin.outpoint.hash) = some other :=
      Option.isSome_iff_exists.mp (find?_isSome.mpr ⟨coin.1, inside, by simp [Coin.outpoint]⟩)
    have sameHash : other.hash = coin.outpoint.hash := by
      simpa only [decide_eq_true_eq] using find?_some isFirst
    rw [isFirst, inj_on_of_nodup_map wallet.distinct (mem_of_find?_eq_some isFirst) inside
      sameHash]
  refine ⟨index, ?_⟩
  rw [CWallet.valueOf, found]
  change (coin.1.vout[coin.outpoint.n.toNat]?).bind (fun txout => some txout.nValue) = _
  rw [index, Coin.value, getD_eq_getElem?_getD, getElem?_eq_getElem bound]
  rfl

/-- Different coins have different outpoints. -/
theorem CWallet.nodup_outpoints (distinct : coins.Nodup) (inside : coins ⊆ wallet.allCoins)
    : (coins.map Coin.outpoint).Nodup := by
  refine List.Nodup.map_on (fun coin mem other isOther same => ?_) distinct
  have index := (CWallet.valueOf_outpoint (inside mem)).1
  have otherIndex := (CWallet.valueOf_outpoint (inside isOther)).1
  have sameTx : coin.1 = other.1 :=
    inj_on_of_nodup_map wallet.distinct (CWallet.mem_allCoins.mp (inside mem)).1
      (CWallet.mem_allCoins.mp (inside isOther)).1 (congrArg COutPoint.hash same)
  exact Prod.ext sameTx (by rw [← index, ← otherIndex, same])

/-- The inputs that spend coins have the values of these. -/
theorem CWallet.mapM_valueOf (inside : coins ⊆ wallet.allCoins)
    : (coins.map Coin.outpoint).mapM wallet.valueOf = some (coins.map Coin.value) := by
  induction coins with
  | nil => rfl
  | cons coin coins ih =>
    obtain ⟨mem, others⟩ := cons_subset.mp inside
    rw [map_cons, mapM_cons, (CWallet.valueOf_outpoint mem).2, ih others]
    rfl

/-- Signing keeps what the inputs spend. -/
theorem signInputs_ok {context} (length : txNew.vin.length = setCoins.length)
    (run : signInputs context sign txNew setCoins = .ok signed)
    : signed.vin.map CTxIn.prevout = txNew.vin.map CTxIn.prevout ∧ signed.vout = txNew.vout := by
  rw [signInputs] at run
  split at run
  next => cases run
  next scripts found =>
    cases run
    have same := (CWallet.forall₂_of_mapM found).length_eq
    rw [length_zipIdx, ← length] at same
    refine ⟨?_, rfl⟩
    exact ext_getElem (by simp [same]) fun i _ _ => by simp

/-! Rounds. -/

/-- What is asked for, with the largest fee, and what the coins are worth fit a `CAmount`. -/
structure Fits (context : Context) (vecSend : List CRecipient)
    (coinControl : Option CCoinControl)
    : Prop where
  recipients : vecSend.length < 2 ^ 32
  amounts : requested vecSend + context.policy.maxTxFee.toInt + cent.toInt < 2 ^ 63
  coins : sumOf (context.wallet.coinsInPlay context.params.fCoinbaseMustBeProtected coinControl)
    < 2 ^ 63

/-- The outputs pay the recipients. When there are payers, then what they get less than they
asked for is the fee and what the change was raised by.
-/
structure Settled (minRelayTxFee : CFeeRate) (vecSend : List CRecipient) (created : Created)
    (paid : List CTxOut) (change : Option (Nat × CTxOut)) (raised : Int)
    : Prop where
  each : PaysEach vecSend paid
  outputs : created.wtxNew.vout = withChange paid change
  position : created.nChangePosRet = change.map Prod.fst
  taken : requested vecSend - sumOut paid
    = if payers vecSend = 0 then 0 else created.nFeeRet.toInt + raised
  nonneg : 0 ≤ raised
  isRaised : raised ≠ 0 → ∃ position out, change = some (position, out)
    ∧ out.nValue = getDustThreshold minRelayTxFee out

/-- The created transaction balances. -/
structure Balanced (context : Context) (vecSend : List CRecipient) (created : Created) : Prop
    where
  distinct : (created.wtxNew.vin.map CTxIn.prevout).Nodup
  fee : ∃ values, (created.wtxNew.vin.map CTxIn.prevout).mapM context.wallet.valueOf = some values
    ∧ (values.map Int64.toInt).sum - sumOut created.wtxNew.vout = created.nFeeRet.toInt
  nonneg : ∀ txout ∈ created.wtxNew.vout, 0 ≤ txout.nValue.toInt
  settled : ∃ paid change raised,
    Settled context.policy.minRelayTxFee vecSend created paid change raised

/-- How a round ends. -/
def RoundResult.Ok (context : Context) (vecSend : List CRecipient) (nFeeRet : CAmount)
    : RoundResult → Prop
  | .done created => Balanced context vecSend created
  | .more nFeeNeeded => nFeeRet.toInt < nFeeNeeded.toInt
      ∧ nFeeNeeded.toInt ≤ context.policy.maxTxFee.toInt

theorem capped_le (nFee most : CAmount)
    : (if nFee > most then most else nFee).toInt ≤ most.toInt := by
  split
  next => exact le_refl _
  next small => exact le_iff_toInt_le.mp (Int64.not_lt.mp small)

variable {context : Context} {coinControl : Option CCoinControl}

/-- A round that asks for more fee asks for more than it had, and for no more than the maximum. -/
theorem createRound_more {nFeeNeeded} (fee : 0 ≤ nFeeRet.toInt)
    (most : nFeeRet.toInt ≤ context.policy.maxTxFee.toInt)
    (run : createRound context vecSend coinControl sign chance txNew maxTxSize nValue count nFeeRet
      = .ok (.more nFeeNeeded))
    : nFeeRet.toInt < nFeeNeeded.toInt
      ∧ nFeeNeeded.toInt ≤ context.policy.maxTxFee.toInt := by
  obtain ⟨vout, -, run⟩ := bind_ok.mp run
  dsimp only at run
  split at run
  next => cases run
  next selection selected =>
    obtain ⟨outputs, changeRun, run⟩ := bind_ok.mp run
    have grows := le_makeChange fee (most.trans context.policy.maxTxFee_range.2) changeRun
    simp only [bind_ok] at run
    obtain ⟨_, -, signed, -, bytes, -, wtxNew, -, _, -, run⟩ := run
    split at run
    next => cases run
    next =>
      obtain ⟨_, -, run⟩ := bind_ok.mp run
      rw [pure_ok] at run
      split at run
      next => cases run
      next more =>
        cases run
        rw [Int64.not_le, lt_iff_toInt_lt] at more
        exact ⟨lt_of_le_of_lt grows more, capped_le _ _⟩

/-- The change of a round: what its coins are worth more than what is paid, and is paid as fee. -/
theorem change_value {nValueRet} (value : 0 ≤ nValue.toInt) (fee : 0 ≤ nFeeRet.toInt)
    (room : nValue.toInt + nFeeRet.toInt < 2 ^ 63)
    (enough : (if count = 0 then nValue + nFeeRet else nValue) ≤ nValueRet)
    : (if count = 0 then nValueRet - nValue - nFeeRet else nValueRet - nValue).toInt
        = nValueRet.toInt - nValue.toInt - (if count = 0 then nFeeRet.toInt else 0)
      ∧ nValue.toInt + (if count = 0 then nFeeRet.toInt else 0) ≤ nValueRet.toInt := by
  have high := nValueRet.toInt_lt
  have total : (nValue + nFeeRet).toInt = nValue.toInt + nFeeRet.toInt := toInt_add ⟨by omega, room⟩
  by_cases none : count = 0
  · rw [if_pos none, le_iff_toInt_le, total] at enough
    rw [if_pos none, if_pos none]
    have difference : (nValueRet - nValue).toInt = nValueRet.toInt - nValue.toInt :=
      toInt_sub ⟨by omega, by omega⟩
    exact ⟨by rw [← difference]; exact toInt_sub ⟨by omega, by omega⟩, enough⟩
  · rw [if_neg none, le_iff_toInt_le] at enough
    rw [if_neg none, if_neg none, sub_zero, add_zero]
    exact ⟨toInt_sub ⟨by omega, by omega⟩, enough⟩

/-- What the outputs of a round come to. -/
structure Outputs.Ok (minRelayTxFee : CFeeRate) (vecSend : List CRecipient) (outputs : Outputs)
    (nValueRet : Int)
    : Prop where
  sum : nValueRet - sumOut outputs.vout = outputs.nFeeRet.toInt
  nonneg : ∀ txout ∈ outputs.vout, 0 ≤ txout.nValue.toInt
  settled : ∀ wtxNew : CTransaction, wtxNew.vout = outputs.vout → ∃ paid change raised,
    Settled minRelayTxFee vecSend
      { wtxNew, nFeeRet := outputs.nFeeRet, nChangePosRet := outputs.nChangePosRet } paid change
      raised

/-- However change is made, the outputs balance. -/
theorem ChangeMade.ok {nValueRet} (nonneg : 0 ≤ nChange.toInt)
    (counted : count.toNat = payers vecSend) (change : nChange.toInt = nValueRet - requested vecSend
      - (if count = 0 then nFeeRet.toInt else 0))
    (made : ChangeMade policy vecSend count nChange nFeeRet
      (if count = 0 then 0 else nFeeRet.toInt) outputs)
    : outputs.Ok policy.minRelayTxFee vecSend nValueRet := by
  have noPayers : count = 0 ↔ payers vecSend = 0 := by
    rw [← counted, ← UInt32.toNat_inj]
    exact Iff.rfl
  cases made with
  | toFee paid noChange fee alone =>
    have total := paid.sum
    have zero : count ≠ 0 → nChange.toInt = 0 := fun some => by
      by_contra notZero
      exact some (alone notZero)
    refine ⟨?_, paid.nonneg, fun wtxNew same => ⟨outputs.vout, .none, 0, paid.each, same,
      noChange, ?_, le_refl 0, fun absurd => (absurd rfl).elim⟩⟩
    · split at change <;> split at total <;> first | omega | contradiction
    simp only [← noPayers]
    by_cases none : count = 0
    · simp only [if_pos none] at total ⊢
      omega
    · have exactly := zero none
      simp only [if_neg none] at total ⊢
      omega
  | output paid position change raised payments low isRaised vout inside isPosition value fee =>
    have total := payments.sum
    have sum := sumOut_insertIdx inside change
    rw [← vout] at sum
    refine ⟨?_, ?_, fun wtxNew same => ⟨paid, some (position, change), raised, payments.each,
      same.trans vout, isPosition, ?_, low,
      fun notZero => ⟨position, change, rfl, (isRaised notZero).2⟩⟩⟩
    · rw [fee]
      by_cases none : count = 0
      · simp only [if_pos none] at *
        omega
      · simp only [if_neg none] at *
        omega
    · rw [vout]
      intro txout mem
      rcases eq_or_mem_of_mem_insertIdx mem with rfl | mem
      · omega
      · exact payments.nonneg txout mem
    · rw [fee]
      simp only [← noPayers]
      by_cases none : count = 0
      · have zero : raised = 0 := by
          by_contra notZero
          exact (isRaised notZero).1 none
        simp only [if_pos none] at total ⊢
        omega
      · simp only [if_neg none] at total ⊢
        omega

/-- A transaction that spends selected coins, with outputs that balance. -/
theorem Balanced.of_copy {unsigned wtxNew} (distinct : setCoins.Nodup)
    (inside : setCoins ⊆ context.wallet.allCoins) (vin : unsigned.vin = setCoins.map inputOf)
    (vout : unsigned.vout = outputs.vout)
    (signRun : signInputs context sign unsigned setCoins = .ok signed)
    (copied : CTransaction.copy context.sha256d (if sign then signed else unsigned) = .ok wtxNew)
    (ok : outputs.Ok context.policy.minRelayTxFee vecSend (sumOf setCoins))
    : Balanced context vecSend
        { wtxNew, nFeeRet := outputs.nFeeRet, nChangePosRet := outputs.nChangePosRet } := by
  have spends : unsigned.vin.map CTxIn.prevout = setCoins.map Coin.outpoint := by
    rw [vin, map_map]
    rfl
  have fields := CTransaction.copy_fields copied
  obtain ⟨signedVin, signedVout⟩ := signInputs_ok (by rw [vin, length_map]) signRun
  obtain ⟨inputs, outs⟩ : wtxNew.vin.map CTxIn.prevout = setCoins.map Coin.outpoint
      ∧ wtxNew.vout = outputs.vout := by
    rw [fields]
    split
    · exact ⟨signedVin.trans spends, signedVout.trans vout⟩
    · exact ⟨spends, vout⟩
  refine ⟨?_, ⟨setCoins.map Coin.value, ?_, ?_⟩, ?_, ok.settled wtxNew outs⟩
  · rw [inputs]
    exact CWallet.nodup_outpoints distinct inside
  · rw [inputs]
    exact CWallet.mapM_valueOf inside
  · rw [outs, map_map]
    exact ok.sum
  · rw [outs]
    exact ok.nonneg

section

variable (fits : Fits context vecSend coinControl)
  (amounts : ∀ recipient ∈ vecSend, 0 ≤ recipient.nAmount.toInt)
  (value : nValue.toInt = requested vecSend) (counted : count.toNat = payers vecSend)
  (fee : 0 ≤ nFeeRet.toInt) (most : nFeeRet.toInt ≤ context.policy.maxTxFee.toInt)
include fits amounts value counted fee most

/-- A round ends with a transaction that balances, or asks for a larger fee. -/
theorem createRound_ok {result}
    (run : createRound context vecSend coinControl sign chance txNew maxTxSize nValue count nFeeRet
      = .ok result)
    : result.Ok context vecSend nFeeRet := by
  have more : ∀ nFeeNeeded, result = .more nFeeNeeded → result.Ok context vecSend nFeeRet := by
    rintro nFeeNeeded rfl
    exact createRound_more fee most run
  have fitsAmounts := fits.amounts
  have small : cent.toInt = 1000000 := rfl
  have valueLow : 0 ≤ nValue.toInt := value ▸ requested_nonneg amounts
  obtain ⟨vout, paidRun, run⟩ := bind_ok.mp run
  dsimp only at run
  split at run
  next => cases run
  next selection selected =>
    have paid := payees_ok fee amounts (fun some => by omega) paidRun
    rw [counted, share_all _ rfl, ← counted] at paid
    have zero : count.toNat = 0 ↔ count = 0 := UInt32.toNat_inj (b := 0)
    simp only [zero] at paid
    have total : (nValue + nFeeRet).toInt = nValue.toInt + nFeeRet.toInt :=
      toInt_add ⟨by omega, by omega⟩
    have target : (if count = 0 then nValue + nFeeRet else nValue).toInt + cent.toInt < 2 ^ 63
        ∧ 0 ≤ (if count = 0 then nValue + nFeeRet else nValue).toInt := by
      split
      · omega
      · omega
    obtain ⟨pays, enough⟩ := CWallet.selectCoins_ok target.1 target.2 fits.coins selected
    obtain ⟨changeValue, changeLow⟩ := change_value valueLow fee (by omega) enough
    generalize (if count = 0 then selection.nValueRet - nValue - nFeeRet
      else selection.nValueRet - nValue) = nChange at run changeValue
    have high := selection.nValueRet.toInt_lt
    obtain ⟨outputs, changeRun, run⟩ := bind_ok.mp run
    have nonneg : 0 ≤ nChange.toInt := by omega
    have feeRoom : count = 0 → nFeeRet.toInt + nChange.toInt < 2 ^ 63 := fun none => by
      rw [if_pos none] at changeValue
      omega
    have made := makeChange_ok paid nonneg (fun some none => some (zero.mp (counted.trans none)))
      fee feeRoom changeRun
    have ok := made.ok nonneg counted (value ▸ changeValue)
    simp only [bind_ok] at run
    obtain ⟨_, -, signed, signRun, bytes, -, wtxNew, copied, _, -, run⟩ := run
    have same := chance.arrange_perm selection.setCoinsRet
    rw [pays.value, ← sumOf_perm same] at ok
    have balanced := Balanced.of_copy (same.nodup_iff.mpr pays.distinct)
      (fun coin mem => pays.inside (same.subset mem)) rfl rfl signRun
      (mapError_ok.mp copied) ok
    split at run
    next =>
      cases run
      exact balanced
    next =>
      obtain ⟨_, -, run⟩ := bind_ok.mp run
      rw [pure_ok] at run
      split at run
      next => exact run ▸ balanced
      next => exact more _ run.symm

/-! The loop. -/

/-- Every round has a fee within the limits, so the transaction that is returned balances. -/
theorem createLoop_ok {chances fuel round created}
    (run : createLoop context vecSend coinControl sign chances txNew maxTxSize nValue count fuel
      round nFeeRet = .ok created)
    : Balanced context vecSend created := by
  induction fuel generalizing round nFeeRet with
  | zero => cases run
  | succ fuel ih =>
    obtain ⟨result, roundRun, rest⟩ := bind_ok.mp run
    have ok := createRound_ok fits amounts value counted fee most roundRun
    cases result with
    | done created =>
      cases rest
      exact ok
    | more nFeeNeeded =>
      obtain ⟨grows, limit⟩ := ok
      exact ih (by omega) limit rest

end

/-- Payments balance: inputs minus outputs are the returned fee, no input is used twice, no
output is negative, and the recipients get what they asked for, except that payers pay the fee
and what dust change is raised by.
-/
theorem createTransaction_balances {sign : Bool} {chances : Nat → Chance} {back : Option Nat}
    {created : Created} (fits : Fits context vecSend coinControl)
    (run : createTransaction context vecSend coinControl sign chances back = .ok created)
    : Balanced context vecSend created := by
  obtain ⟨⟨nValue, count⟩, summed, run⟩ := bind_ok.mp run
  have amounts := sumRecipients_nonneg summed
  have small : cent.toInt = 1000000 := rfl
  have fitsAmounts := fits.amounts
  have limit := context.policy.maxTxFee_range
  have zero : (0 : CAmount).toInt = 0 := rfl
  obtain ⟨value, counted⟩ := sumRecipients_ok summed (le_refl 0) (by omega)
    (by rw [UInt32.toNat_zero, Nat.zero_add]; exact fits.recipients)
  rw [zero, zero_add] at value
  rw [UInt32.toNat_zero, Nat.zero_add] at counted
  simp only [bind_ok] at run
  obtain ⟨_, -, txNew, -, _, -, _, -, _, -, run⟩ := run
  have feeLow : 0 ≤ (0 : CAmount).toInt := le_refl 0
  exact createLoop_ok fits amounts value counted feeLow limit.1 run

/-! Two payments from a wallet with one coin. -/

/-- A wallet with one confirmed coin of 1 RES. -/
def oneCoin : CWallet where
  mapWallet := [{
    vin := [{ prevout := { hash := .null, n := 0 } }]
    vout := [{ nValue := coin, scriptPubKey := [] }]
    hash := .null
    isFinal := true
    isTrusted := true
    blocksToMaturity := 0
    nDepth := 10
    isFromMe := false }]
  isMine := fun _ => .spendable
  isSpent := fun _ _ => false
  isLockedCoin := fun _ _ => false
  bSpendZeroConfChange := true
  distinct := by decide
  outputs := by decide
  values := by decide

/-- No shuffling, and change in the first place. -/
def noChance : Chance where
  shuffle := fun _ vCoins => vCoins
  shuffle_perm := fun _ vCoins => .refl vCoins
  flip := fun _ _ _ _ => true
  arrange := fun setCoins => setCoins
  arrange_perm := fun setCoins => .refl setCoins
  position := fun _ => 0
  position_le := fun n => Nat.zero_le n

/-- A node at height 100 of the main network that sends free transactions, or does not. -/
def oneCoinContext (free : Bool) : Context where
  wallet := oneCoin
  policy := {
    fSendFreeTransactions := free
    relay_parsed := ⟨by decide, by decide⟩
    maxTxFee_range := by decide }
  params := Params.main
  nHeight := 100
  reservedScript := []
  produceSignature := fun _ _ _ _ => some []
  enoughPriority := fun _ _ => true
  sha256d := fun _ => .null

/-- Half of the coin, less the fee. -/
def halfCoin : List CRecipient :=
  [{ scriptPubKey := [], nAmount := coin / 2, fSubtractFeeFromAmount := true }]

/-- The largest amount there is. -/
def everything : List CRecipient :=
  [{ scriptPubKey := [], nAmount := Int64.maxValue, fSubtractFeeFromAmount := false }]

theorem halfCoin_balances
    : ∃ created, createTransaction (oneCoinContext false) halfCoin none true (fun _ => noChance)
        none = .ok created
      ∧ Fits (oneCoinContext false) halfCoin none
      ∧ Balanced (oneCoinContext false) halfCoin created := by
  obtain ⟨created, run⟩ := exists_of_isOk (x := createTransaction (oneCoinContext false) halfCoin
    none true (fun _ => noChance) none) (by decide +kernel)
  have fits : Fits (oneCoinContext false) halfCoin none :=
    ⟨by decide, by decide +kernel, by decide +kernel⟩
  exact ⟨created, run, fits, createTransaction_balances fits run⟩

/-- With the largest amount the target of `SelectCoinsMinConf` wraps, any coin is then larger
than it, and a free transaction spends 1 RES to pay 2^63 - 1.
-/
theorem everything_unbalanced
    : ∃ created, createTransaction (oneCoinContext true) everything none true (fun _ => noChance)
        none = .ok created
      ∧ sumOut created.wtxNew.vout = 2 ^ 63 - 1
      ∧ (created.wtxNew.vin.map CTxIn.prevout).mapM oneCoin.valueOf = some [coin]
      ∧ created.nFeeRet = 0 ∧ ¬ Balanced (oneCoinContext true) everything created := by
  obtain ⟨created, run⟩ := exists_of_isOk (x := createTransaction (oneCoinContext true) everything
    none true (fun _ => noChance) none) (by decide +kernel)
  have values : ((createTransaction (oneCoinContext true) everything none true (fun _ => noChance)
      none).toOption.map fun created => (sumOut created.wtxNew.vout,
        (created.wtxNew.vin.map CTxIn.prevout).mapM oneCoin.valueOf, created.nFeeRet))
      = some (2 ^ 63 - 1, some [coin], 0) := by decide +kernel
  rw [run, Except.toOption, Option.map_some, Option.some_inj, Prod.mk.injEq, Prod.mk.injEq]
    at values
  obtain ⟨out, spent, fee⟩ := values
  refine ⟨created, run, out, spent, fee, fun balanced => ?_⟩
  obtain ⟨values, same, sum⟩ := balanced.fee
  cases spent.symm.trans same
  rw [out, fee] at sum
  cases sum

end Resistance.Wallet

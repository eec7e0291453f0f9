import Resistance.Primitives.Constructors
import Resistance.Validation.CheckBlock

/-! The coinbase that `CreateNewBlock` builds, from `miner.cpp`, and the agreement of its
shares with the two independent checks of the validator.
-/

namespace Resistance.Mining

open List Primitives Consensus Script Validation Lib Lib.Checks MachineInt CMutableTransaction Int

def blossomPowTargetSpacingRatio : UInt32 := 1
def defaultPreBlossomTxExpiryDelta : UInt32 := 20
def defaultPostBlossomTxExpiryDelta : UInt32 :=
  defaultPreBlossomTxExpiryDelta * blossomPowTargetSpacingRatio

/-- `NextActivationHeight`: the activation height of the first pending upgrade. Sprout is
never pending.
-/
def nextActivationHeight (nHeight : Int) (params : Params) : Option Int :=
  if nHeight < 0 then none
  else
    ([.testdummy, .overwinter, .sapling, .blossom] : List UpgradeIndex).find?
      (fun idx => params.networkUpgradeState nHeight idx == .pending)
    |>.map params.nActivationHeight

/-- The expiry height of a new Overwinter transaction, before it is checked. -/
def defaultExpiryHeight (expiryDeltaArg : Option UInt32) (params : Params) (nHeight : Int)
    : UInt32 :=
  let defaultExpiryDelta :=
    if params.networkUpgradeActive nHeight .blossom then defaultPostBlossomTxExpiryDelta
    else defaultPreBlossomTxExpiryDelta
  UInt32.ofInt nHeight + expiryDeltaArg.getD defaultExpiryDelta

/-- `CreateNewContextualCMutableTransaction`. -/
def createNewContextualCMutableTransaction (expiryDeltaArg : Option UInt32)
    (params : Params) (nHeight : Int) : Except Failure CMutableTransaction :=
  if params.networkUpgradeActive nHeight .overwinter then do
    let sapling := params.networkUpgradeActive nHeight .sapling
    let nExpiryHeight := defaultExpiryHeight expiryDeltaArg params nHeight
    throwIf (nExpiryHeight ≤ 0 ∨ nExpiryHeight ≥ txExpiryHeightThreshold)
      (.exception "CreateNewContextualCMutableTransaction: invalid expiry height")
    pure {
      fOverwintered := true
      nVersionGroupId := if sapling then saplingVersionGroupId else overwinterVersionGroupId
      nVersion := if sapling then saplingTxVersion else overwinterTxVersion
      nExpiryHeight :=
        match nextActivationHeight nHeight params with
        | some height => min nExpiryHeight (UInt32.ofInt height - 1)
        | none => nExpiryHeight
    }
  else pure {}

/-- Take a reward away from the miner's output and append an output that pays it. -/
def takeReward (chainparams : CChainParams) (nHeight : Int) (subsidy nFees : CAmount)
    (txNew : CMutableTransaction) (reward : Reward) : Except Failure CMutableTransaction :=
  let consensusParams := chainparams.consensus
  if reward.Due consensusParams nHeight then do
    let vReward := subsidy * Int64.ofInt (reward.percentage consensusParams) / 100
    let vReward := vReward + nFees * Int64.ofInt (reward.txPercentage consensusParams) / 100
    let script ← reward.scriptAtHeight chainparams nHeight
    let vout := txNew.vout.modifyHead fun miner =>
      { miner with nValue := miner.nValue - vReward }
    pure { txNew with vout := vout ++ [{ nValue := vReward, scriptPubKey := script }] }
  else pure txNew

/-- The coinbase of `CreateNewBlock`, `pblock->vtx[0]`. -/
def createCoinbase (sha256d : Bytes → Uint256) (chainparams : CChainParams)
    (expiryDeltaArg : Option UInt32) (scriptPubKeyIn : CScript) (nHeight : Int)
    (nFees : CAmount) : Except Failure CTransaction := do
  let txNew ← createNewContextualCMutableTransaction expiryDeltaArg chainparams.consensus
    nHeight
  let subsidy := getBlockSubsidy nHeight chainparams.consensus
  let txNew := { txNew with
    vin := [{}]
    vout := [{ nValue := subsidy + nFees, scriptPubKey := scriptPubKeyIn }]
    -- Set to 0 so expiry height does not apply to coinbase txs
    nExpiryHeight := 0 }
  let txNew ← Reward.all.foldlM (takeReward chainparams nHeight subsidy nFees) txNew
  let scriptSig := pushInt64 [] (Int64.ofInt nHeight) ++ [op0]
  (CTransaction.copy sha256d { txNew with vin := [{ scriptSig }] }).mapError .exception

/-- Percentages that leave the miner a share of the subsidy and of the fees. -/
structure SharesWithin100 (params : Params) : Prop where
  percentage_nonneg : ∀ reward : Reward, 0 ≤ reward.percentage params
  txPercentage_nonneg : ∀ reward : Reward, 0 ≤ reward.txPercentage params
  percentage_sum : params.nPorRewardPercentage + params.nMasternodeRewardPercentage
    + params.nPlatformDevFundPercentage ≤ 100
  txPercentage_sum : params.nPorRewardTxPercentage + params.nMasternodeRewardTxPercentage
    + params.nPlatformDevFundTxPercentage ≤ 100

theorem percentage_le {percentage : Reward → Int} (nonneg : ∀ reward, 0 ≤ percentage reward)
    (sum : percentage .por + percentage .masternode + percentage .platformDev ≤ 100)
    (reward : Reward)
    : percentage reward ≤ 100 := by
  have por := nonneg .por
  have masternode := nonneg .masternode
  have platformDev := nonneg .platformDev
  cases reward <;> omega

/-- A percentage of an amount is an amount, and does not overflow on the way. -/
theorem percentage_toInt {amount} {percentage} (range : Money amount.toInt)
    (nonneg : 0 ≤ percentage) (bound : percentage ≤ 100)
    : (amount * Int64.ofInt percentage / 100).toInt = amount.toInt * percentage / 100
      ∧ Money (amount.toInt * percentage / 100) := by
  obtain ⟨amount_nonneg, amount_le⟩ := range
  rw [maxMoney_toInt] at amount_le
  have factor : (Int64.ofInt percentage).toInt = percentage := toInt_ofInt ⟨by omega, by omega⟩
  have product_nonneg : 0 ≤ amount.toInt * percentage := mul_nonneg amount_nonneg nonneg
  have product_le : amount.toInt * percentage ≤ amount.toInt * 100 := by gcongr
  have product : (amount * Int64.ofInt percentage).toInt = amount.toInt * percentage := by
    have range : MachineInt.InRange (amount.toInt * (Int64.ofInt percentage).toInt) := by
      rw [factor]
      exact ⟨by omega, by omega⟩
    rw [toInt_mul range, factor]
  rw [toInt_div (by omega) (by decide), product]
  exact ⟨rfl, ediv_nonneg product_nonneg (by decide), by rw [maxMoney_toInt]; omega⟩

/-- The three percentages of an amount together do not exceed it. -/
theorem percentages_le {amount p q r : Int} (nonneg : 0 ≤ amount) (sum : p + q + r ≤ 100)
    : amount * p / 100 + amount * q / 100 + amount * r / 100 ≤ amount := by
  have products : amount * p + amount * q + amount * r ≤ amount * 100 := by
    rw [← mul_add, ← mul_add]
    exact mul_le_mul_of_nonneg_left sum nonneg
  omega

section Coinbase

variable (chainparams : CChainParams) (nHeight : Int) (nFees : CAmount)

/-- What a block with the given fees owes for a reward. -/
def share (reward : Reward) : CAmount :=
  getBlockSubsidy nHeight chainparams.consensus
      * Int64.ofInt (reward.percentage chainparams.consensus) / 100
    + nFees * Int64.ofInt (reward.txPercentage chainparams.consensus) / 100

/-- What the due rewards of a list cost the miner. -/
def cost (rewards : List Reward) : Int :=
  ((rewards.filter (fun reward => reward.Due chainparams.consensus nHeight)).map
    (fun reward => (share chainparams nHeight nFees reward).toInt)).sum

/-- The output pays exactly what is owed for the reward. -/
structure Pays (reward : Reward) (output : CTxOut) : Prop where
  script : reward.scriptAtHeight chainparams nHeight = .ok output.scriptPubKey
  value : output.nValue = share chainparams nHeight nFees reward

/-- The outputs pay the due rewards of a list and nothing else. -/
structure PaysDue (rewards : List Reward) (outs : List CTxOut) : Prop where
  sum : (outs.map (fun output => output.nValue.toInt)).sum
    = cost chainparams nHeight nFees rewards
  pays : ∀ reward ∈ rewards, reward.Due chainparams.consensus nHeight →
    ∃ output ∈ outs, Pays chainparams nHeight nFees reward output
  only : ∀ output ∈ outs, ∃ reward, Pays chainparams nHeight nFees reward output

/-- A height, fees and percentages for which the shares are exact. -/
structure Splittable : Prop where
  shares : SharesWithin100 chainparams.consensus
  positive : 1 ≤ nHeight
  fees : 0 ≤ nFees.toInt
  subsidy : 0 ≤ (getBlockSubsidy nHeight chainparams.consensus).toInt
  total : (getBlockSubsidy nHeight chainparams.consensus).toInt + nFees.toInt
    ≤ maxMoney.toInt

variable {chainparams nHeight} {reward : Reward} {rewards : List Reward} {outs : List CTxOut}

theorem cost_cons_due (rewards : List Reward) (due : reward.Due chainparams.consensus nHeight)
    : cost chainparams nHeight nFees (reward :: rewards)
      = (share chainparams nHeight nFees reward).toInt
        + cost chainparams nHeight nFees rewards := by
  simp [cost, due]

theorem cost_cons_not_due (rewards : List Reward) (due : ¬ reward.Due chainparams.consensus nHeight)
    : cost chainparams nHeight nFees (reward :: rewards)
      = cost chainparams nHeight nFees rewards := by
  simp [cost, due]

variable {nFees}

theorem PaysDue.cons_due {output} (due : reward.Due chainparams.consensus nHeight)
    (head : Pays chainparams nHeight nFees reward output)
    (tail : PaysDue chainparams nHeight nFees rewards outs)
    : PaysDue chainparams nHeight nFees (reward :: rewards) (output :: outs) where
  sum := by rw [map_cons, sum_cons, tail.sum, cost_cons_due nFees rewards due, head.value]
  pays other mem dueOther := by
    rcases mem_cons.mp mem with rfl | later
    · exact ⟨output, mem_cons_self, head⟩
    · obtain ⟨out, listed, pays⟩ := tail.pays other later dueOther
      exact ⟨out, mem_cons_of_mem _ listed, pays⟩
  only out mem := by
    rcases mem_cons.mp mem with rfl | later
    · exact ⟨reward, head⟩
    · exact tail.only out later

theorem PaysDue.cons_not_due (due : ¬ reward.Due chainparams.consensus nHeight)
    (tail : PaysDue chainparams nHeight nFees rewards outs)
    : PaysDue chainparams nHeight nFees (reward :: rewards) outs where
  sum := by rw [tail.sum, cost_cons_not_due nFees rewards due]
  pays other mem dueOther := by
    rcases mem_cons.mp mem with rfl | later
    · exact absurd dueOther due
    · exact tail.pays other later dueOther
  only := tail.only

namespace Splittable

variable (split : Splittable chainparams nHeight nFees)

include split

theorem subsidy_range : Money (getBlockSubsidy nHeight chainparams.consensus).toInt := by
  have := split.fees
  have := split.total
  exact ⟨split.subsidy, by omega⟩

theorem fees_range : Money nFees.toInt := by
  have := split.subsidy
  have := split.total
  exact ⟨split.fees, by omega⟩

/-- The subsidy's part of a share, in exact arithmetic. -/
theorem subsidyPart_toInt (reward : Reward)
    : (getBlockSubsidy nHeight chainparams.consensus
          * Int64.ofInt (reward.percentage chainparams.consensus) / 100).toInt
        = (getBlockSubsidy nHeight chainparams.consensus).toInt
          * reward.percentage chainparams.consensus / 100
      ∧ Money ((getBlockSubsidy nHeight chainparams.consensus).toInt
          * reward.percentage chainparams.consensus / 100) :=
  percentage_toInt split.subsidy_range (split.shares.percentage_nonneg reward)
    (percentage_le split.shares.percentage_nonneg split.shares.percentage_sum reward)

/-- A share is the sum of its parts, which are amounts. -/
theorem share_toInt (reward : Reward)
    : (share chainparams nHeight nFees reward).toInt
        = (getBlockSubsidy nHeight chainparams.consensus).toInt
            * reward.percentage chainparams.consensus / 100
          + nFees.toInt * reward.txPercentage chainparams.consensus / 100
      ∧ 0 ≤ (getBlockSubsidy nHeight chainparams.consensus).toInt
            * reward.percentage chainparams.consensus / 100
      ∧ 0 ≤ nFees.toInt * reward.txPercentage chainparams.consensus / 100 := by
  obtain ⟨block, blockRange⟩ := split.subsidyPart_toInt reward
  obtain ⟨fee, feeRange⟩ := percentage_toInt split.fees_range
    (split.shares.txPercentage_nonneg reward)
    (percentage_le split.shares.txPercentage_nonneg split.shares.txPercentage_sum reward)
  refine ⟨?_, blockRange.1, feeRange.1⟩
  rw [share, Money.add (block ▸ blockRange) (fee ▸ feeRange), block, fee]

theorem share_nonneg (reward : Reward)
    : 0 ≤ (share chainparams nHeight nFees reward).toInt := by
  obtain ⟨value, block, fee⟩ := split.share_toInt reward
  omega

/-- All rewards together cost at most the subsidy and the fees. -/
theorem cost_all_le
    : cost chainparams nHeight nFees Reward.all
      ≤ (getBlockSubsidy nHeight chainparams.consensus).toInt + nFees.toInt := by
  have every : cost chainparams nHeight nFees Reward.all
      ≤ (Reward.all.map fun reward => (share chainparams nHeight nFees reward).toInt).sum := by
    exact List.Sublist.sum_le_sum (filter_sublist.map _)
      (forall_mem_map.mpr fun reward _ => split.share_nonneg reward)
  have block := percentages_le split.subsidy split.shares.percentage_sum
  have fee := percentages_le split.fees split.shares.txPercentage_sum
  refine every.trans ?_
  simp only [Reward.all, map_cons, map_nil, sum_cons, sum_nil,
    (split.share_toInt _).1, Reward.percentage, Reward.txPercentage]
  omega

variable {miner : CTxOut} {paid : List CTxOut}

/-- One step of the miner: a reward that is due moves its share to a new output. -/
theorem takeReward_due {txNew reward} (outputs : txNew.vout = miner :: paid)
    (due : reward.Due chainparams.consensus nHeight)
    : ∃ output, Pays chainparams nHeight nFees reward output
      ∧ takeReward chainparams nHeight (getBlockSubsidy nHeight chainparams.consensus) nFees
          txNew reward
        = .ok { txNew with
            vout := { miner with nValue := miner.nValue - output.nValue }
              :: (paid ++ [output]) } := by
  obtain ⟨script, found⟩ : ∃ script, reward.scriptAtHeight chainparams nHeight = .ok script := by
    cases reward <;>
      exact (getRewardScriptAtHeight_ok _ split.positive due.2 _).imp' payToScriptHash fun _ => id
  refine ⟨{ nValue := share chainparams nHeight nFees reward, scriptPubKey := script },
    ⟨found, rfl⟩, ?_⟩
  rw [takeReward, if_pos due]
  refine bind_ok.mpr ⟨script, found, ?_⟩
  rw [outputs]
  rfl

/-- The miner pays every reward of the list that is due, in order, and keeps the rest. -/
theorem takeRewards (rewards : List Reward) (txNew : CMutableTransaction)
    (outputs : txNew.vout = miner :: paid)
    (enough : cost chainparams nHeight nFees rewards ≤ miner.nValue.toInt)
    : ∃ kept outs,
        rewards.foldlM (takeReward chainparams nHeight
          (getBlockSubsidy nHeight chainparams.consensus) nFees) txNew
          = .ok { txNew with vout := { miner with nValue := kept } :: (paid ++ outs) }
        ∧ kept.toInt = miner.nValue.toInt - cost chainparams nHeight nFees rewards
        ∧ PaysDue chainparams nHeight nFees rewards outs := by
  induction rewards generalizing txNew miner paid with
  | nil =>
    refine ⟨miner.nValue, [], ?_, ?_, ⟨rfl, nofun, nofun⟩⟩
    · rw [append_nil, ← outputs]
      rfl
    · simp [cost]
  | cons reward rewards ih =>
    by_cases due : reward.Due chainparams.consensus nHeight
    · have rest : 0 ≤ cost chainparams nHeight nFees rewards :=
        sum_nonneg (forall_mem_map.mpr fun reward _ => split.share_nonneg reward)
      have first := split.share_nonneg reward
      have added := cost_cons_due nFees rewards due
      obtain ⟨output, pays, step⟩ := split.takeReward_due outputs due
      have left : (miner.nValue - output.nValue).toInt
          = miner.nValue.toInt - (share chainparams nHeight nFees reward).toInt := by
        have upper := miner.nValue.toInt_lt
        rw [pays.value]
        exact toInt_sub ⟨by omega, by omega⟩
      obtain ⟨kept, outs, run, value, paysRest⟩ := ih
        { txNew with
          vout := { miner with nValue := miner.nValue - output.nValue }
            :: (paid ++ [output]) }
        rfl (by simp only [left]; omega)
      refine ⟨kept, output :: outs, ?_, ?_, .cons_due due pays paysRest⟩
      · refine foldlM_cons_ok.mpr ⟨_, step, ?_⟩
        rw [run, append_assoc, singleton_append]
      · rw [value, left]
        omega
    · rw [cost_cons_not_due nFees rewards due] at enough ⊢
      obtain ⟨kept, outs, run, value, paysRest⟩ := ih txNew outputs enough
      refine ⟨kept, outs, ?_, value, .cons_not_due due paysRest⟩
      exact foldlM_cons_ok.mpr ⟨txNew, by rw [takeReward, if_neg due]; rfl, run⟩

end Splittable

end Coinbase

/-- The expiry height that a new transaction would get is acceptable, or it gets none. -/
def ExpiryInRange (expiryDeltaArg : Option UInt32) (params : Params) (nHeight : Int) : Prop :=
  params.networkUpgradeActive nHeight .overwinter = true →
    0 < defaultExpiryHeight expiryDeltaArg params nHeight
    ∧ defaultExpiryHeight expiryDeltaArg params nHeight < txExpiryHeightThreshold

/-- A transaction without values, in one of the three formats. -/
structure Blank (tx : CMutableTransaction) : Prop where
  format : tx.fOverwintered = true → (tx.isOverwinterV3 || tx.isSaplingV4) = true
  valueBalance : tx.valueBalance = 0
  vJoinSplit : tx.vJoinSplit = []

variable {expiryDeltaArg : Option UInt32} {params : Params} {tx : CMutableTransaction}

theorem createNew_isOk_iff {nHeight}
    : (∃ tx, createNewContextualCMutableTransaction expiryDeltaArg params nHeight = .ok tx)
      ↔ ExpiryInRange expiryDeltaArg params nHeight := by
  unfold createNewContextualCMutableTransaction ExpiryInRange
  by_cases overwinter : params.networkUpgradeActive nHeight .overwinter = true
  · rw [if_pos overwinter]
    constructor
    · rintro ⟨tx, run⟩ _
      obtain ⟨_, checked, _⟩ := bind_ok.mp run
      simpa only [not_or, UInt32.not_le] using throwIf_ok.mp checked
    · intro range
      refine ⟨_, bind_ok.mpr ⟨(), throwIf_ok.mpr ?_, rfl⟩⟩
      simpa only [not_or, UInt32.not_le] using range overwinter
  · simp [overwinter]

theorem createNew_blank {nHeight}
    (run : createNewContextualCMutableTransaction expiryDeltaArg params nHeight = .ok tx)
    : Blank tx := by
  unfold createNewContextualCMutableTransaction at run
  split at run
  · obtain ⟨_, _, run⟩ := bind_ok.mp run
    cases run
    refine ⟨fun _ => ?_, rfl, rfl⟩
    cases params.networkUpgradeActive nHeight .sapling <;> rfl
  · cases run
    exact ⟨by simp, rfl, rfl⟩

theorem Blank.serialize_ok (blank : Blank tx)
    : ∃ bytes, tx.serialize = .ok bytes := by
  have format : ¬ (tx.fOverwintered && !(tx.isOverwinterV3 || tx.isSaplingV4)) = true := by
    intro bad
    simp only [Bool.and_eq_true] at bad
    rw [blank.format bad.1] at bad
    exact Bool.noConfusion bad.2
  rw [serialize, if_neg format]
  by_cases joinsplits : tx.nVersion ≥ 2
  · exact ⟨_, by simp only [serializeJoinSplits, if_pos joinsplits, blank.vJoinSplit]; rfl⟩
  · exact ⟨_, by simp only [serializeJoinSplits, if_neg joinsplits]; rfl⟩

section Agreement

variable {sha256d : Bytes → Uint256} {chainparams : CChainParams}
variable {expiryDeltaArg : Option UInt32} {scriptPubKeyIn : CScript} {nHeight : Int}
variable {nFees : CAmount}

/-- A coinbase that keeps for the miner what the due rewards leave, and pays each of them. -/
structure SplitsReward (chainparams : CChainParams) (nHeight : Int) (nFees : CAmount)
    (scriptPubKeyIn : CScript) (tx : CTransaction) : Prop where
  blank : Blank tx.toCMutableTransaction
  outputs : ∃ kept outs,
    tx.vout = { nValue := kept, scriptPubKey := scriptPubKeyIn } :: outs
    ∧ kept.toInt = (getBlockSubsidy nHeight chainparams.consensus).toInt + nFees.toInt
      - cost chainparams nHeight nFees Reward.all
    ∧ PaysDue chainparams nHeight nFees Reward.all outs

/-- Whenever a new transaction can be made, the coinbase is built and splits the reward. -/
theorem Splittable.createCoinbase_ok (split : Splittable chainparams nHeight nFees) {txNew}
    (created : createNewContextualCMutableTransaction expiryDeltaArg chainparams.consensus
      nHeight = .ok txNew)
    : ∃ tx,
        createCoinbase sha256d chainparams expiryDeltaArg scriptPubKeyIn nHeight nFees = .ok tx
        ∧ SplitsReward chainparams nHeight nFees scriptPubKeyIn tx := by
  have total : (getBlockSubsidy nHeight chainparams.consensus + nFees).toInt
      = (getBlockSubsidy nHeight chainparams.consensus).toInt + nFees.toInt :=
    split.subsidy_range.add split.fees_range
  obtain ⟨kept, outs, run, value, paid⟩ := split.takeRewards Reward.all
    { txNew with
      vin := [{}]
      vout := [{
        nValue := getBlockSubsidy nHeight chainparams.consensus + nFees
        scriptPubKey := scriptPubKeyIn }]
      nExpiryHeight := 0 }
    rfl (by rw [total]; exact split.cost_all_le)
  have blank := createNew_blank created
  have shape : Blank { txNew with
      vin := [{ scriptSig := pushInt64 [] (Int64.ofInt nHeight) ++ [op0] }]
      vout := { nValue := kept, scriptPubKey := scriptPubKeyIn } :: outs
      nExpiryHeight := 0 } :=
    ⟨blank.format, blank.valueBalance, blank.vJoinSplit⟩
  obtain ⟨bytes, written⟩ := shape.serialize_ok
  have copied : CTransaction.copy sha256d _ = _ := CTransaction.copy_ok written
  refine ⟨_, bind_ok.mpr ⟨txNew, created, bind_ok.mpr ⟨_, run, mapError_ok.mpr copied⟩⟩, ?_⟩
  exact ⟨shape, kept, outs, rfl, by rw [value, total], paid⟩

namespace SplitsReward

variable {tx : CTransaction} (splits : SplitsReward chainparams nHeight nFees scriptPubKeyIn tx)

include splits

/-- The outputs add up to the subsidy and the fees. -/
theorem sum_outputs
    : (tx.vout.map (fun output => output.nValue.toInt)).sum
      = (getBlockSubsidy nHeight chainparams.consensus).toInt + nFees.toInt := by
  obtain ⟨kept, outs, outputs, value, paid⟩ := splits.outputs
  rw [outputs, map_cons, sum_cons, paid.sum, value]
  omega

/-- A reward that is due has an output that pays it. -/
theorem exists_pays {reward} (due : reward.Due chainparams.consensus nHeight)
    : ∃ output ∈ tx.vout, Pays chainparams nHeight nFees reward output := by
  obtain ⟨kept, outs, outputs, _, paid⟩ := splits.outputs
  have listed : reward ∈ Reward.all := by cases reward <;> decide
  obtain ⟨output, mem, pays⟩ := paid.pays reward listed due
  exact ⟨output, by rw [outputs]; exact mem_cons_of_mem _ mem, pays⟩

variable (split : Splittable chainparams nHeight nFees)

include split

theorem outputs_nonneg : ∀ output ∈ tx.vout, 0 ≤ output.nValue.toInt := by
  obtain ⟨kept, outs, outputs, value, paid⟩ := splits.outputs
  intro output mem
  rw [outputs] at mem
  rcases mem_cons.mp mem with rfl | later
  · have bound := split.cost_all_le
    simp only [value]
    omega
  · obtain ⟨reward, pays⟩ := paid.only output later
    rw [pays.value]
    exact split.share_nonneg reward

/-- The value that `ConnectBlock` compares with its limit. -/
theorem getValueOut_ok
    : ∃ nValueOut, tx.getValueOut = .ok nValueOut
      ∧ nValueOut.toInt
        = (getBlockSubsidy nHeight chainparams.consensus).toInt + nFees.toInt := by
  have values : tx.valuesOut = tx.vout.map CTxOut.nValue ++ [0] := by
    rw [CTransaction.valuesOut, splits.blank.valueBalance, splits.blank.vJoinSplit]
    rfl
  have sum : (tx.valuesOut.map Int64.toInt).sum
      = (getBlockSubsidy nHeight chainparams.consensus).toInt + nFees.toInt := by
    rw [values, map_append, map_map, sum_append]
    exact (add_zero _).trans splits.sum_outputs
  have items : ∀ x ∈ tx.valuesOut, 0 ≤ x.toInt := by
    intro x mem
    rw [values, mem_append, mem_map, mem_singleton] at mem
    rcases mem with ⟨output, listed, rfl⟩ | rfl
    · exact splits.outputs_nonneg split output listed
    · decide
  have start : (0 : CAmount).toInt = 0 := rfl
  have total := split.total
  obtain ⟨nValueOut, run, value⟩ := sumInRange_of_le _ start.ge items (by omega)
  exact ⟨nValueOut, run, by omega⟩

/-- The coinbase passes the reward checks of `ContextualCheckBlock`. -/
theorem contextualCheck
    : contextualCheckRewards chainparams nHeight tx = .ok () := by
  refine forM_ok.mpr fun reward _ => ?_
  simp only [contextualCheckReward]
  split
  next due =>
    obtain ⟨output, mem, pays⟩ := splits.exists_pays due
    obtain ⟨value, _, fee⟩ := split.share_toInt reward
    refine bind_ok.mpr ⟨true, ?_, throwIf_ok.mpr (by simp)⟩
    rw [pays.script]
    refine pays_of_mem mem rfl (decide_eq_true ?_)
    rw [ge_iff_le, Int64.le_iff_toInt_le, (split.subsidyPart_toInt reward).1, pays.value]
    omega
  · rfl

/-- The coinbase passes the amount and reward checks of `ConnectBlock`. -/
theorem connectCheck
    : connectCheckRewards chainparams nHeight nFees tx = .ok () := by
  obtain ⟨nValueOut, run, value⟩ := splits.getValueOut_ok split
  refine bind_ok.mpr ⟨(), bind_ok.mpr ⟨nValueOut, mapError_ok.mpr run, ?_⟩, ?_⟩
  · refine throwIf_ok.mpr ?_
    rw [gt_iff_lt, Int64.lt_iff_toInt_lt, split.fees_range.add split.subsidy_range]
    omega
  refine forM_ok.mpr fun reward _ => ?_
  simp only [connectCheckReward]
  split
  next due =>
    obtain ⟨output, mem, pays⟩ := splits.exists_pays due
    refine bind_ok.mpr ⟨true, ?_, throwIf_ok.mpr (by simp)⟩
    rw [pays.script]
    exact pays_of_mem mem rfl (decide_eq_true pays.value)
  · rfl

end SplitsReward

end Agreement

/-- Miner and validator agree on block rewards: a coinbase is built exactly when a new
transaction can be made at the height, its miner's output is not negative, its outputs add up
to the subsidy and the fees, and it passes both checks of the validator.
-/
theorem createCoinbase_accepted (sha256d : Bytes → Uint256) (chainparams : CChainParams)
    (expiryDeltaArg : Option UInt32) (scriptPubKeyIn : CScript) {nHeight : Int}
    {nFees : CAmount} (shares : SharesWithin100 chainparams.consensus)
    (positive : 1 ≤ nHeight) (bound : nHeight ≤ intMax) (fees : 0 ≤ nFees.toInt)
    (total : (getBlockSubsidy nHeight chainparams.consensus).toInt + nFees.toInt
      ≤ maxMoney.toInt)
    : ((∃ tx, createCoinbase sha256d chainparams expiryDeltaArg scriptPubKeyIn nHeight nFees
          = .ok tx)
        ↔ ExpiryInRange expiryDeltaArg chainparams.consensus nHeight)
      ∧ ∀ tx,
          createCoinbase sha256d chainparams expiryDeltaArg scriptPubKeyIn nHeight nFees
            = .ok tx
          → (∃ miner outs, tx.vout = miner :: outs ∧ miner.scriptPubKey = scriptPubKeyIn
              ∧ 0 ≤ miner.nValue.toInt)
            ∧ (tx.vout.map (fun output => output.nValue.toInt)).sum
              = (getBlockSubsidy nHeight chainparams.consensus).toInt + nFees.toInt
            ∧ contextualCheckRewards chainparams nHeight tx = .ok ()
            ∧ connectCheckRewards chainparams nHeight nFees tx = .ok () := by
  have subsidy : 0 ≤ (getBlockSubsidy nHeight chainparams.consensus).toInt := by
    obtain ⟨height, rfl⟩ := eq_ofNat_of_zero_le (by omega : 0 ≤ nHeight)
    rw [getBlockSubsidy_toInt chainparams.consensus bound]
    exact natCast_nonneg _
  have split : Splittable chainparams nHeight nFees := { shares, positive, fees, subsidy, total }
  constructor
  · rw [← createNew_isOk_iff]
    constructor
    · rintro ⟨tx, run⟩
      obtain ⟨txNew, created, _⟩ := bind_ok.mp run
      exact ⟨txNew, created⟩
    · rintro ⟨txNew, created⟩
      obtain ⟨tx, run, _⟩ := split.createCoinbase_ok created
      exact ⟨tx, run⟩
  · intro tx run
    obtain ⟨txNew, created, _⟩ := bind_ok.mp run
    obtain ⟨built, again, splits⟩ := split.createCoinbase_ok created
    obtain rfl : tx = built := Except.ok.inj (run.symm.trans again)
    obtain ⟨kept, outs, outputs, _⟩ := splits.outputs
    refine ⟨⟨_, outs, outputs, rfl, ?_⟩, splits.sum_outputs, splits.contextualCheck split,
      splits.connectCheck split⟩
    exact splits.outputs_nonneg split _ (by rw [outputs]; exact mem_cons_self)

theorem createCoinbase_accepted_main
    : let chainparams := CChainParams.main (fun _ => .scriptID (zeroBytes 20))
        ⟨_, rfl⟩ ⟨_, rfl⟩ ⟨_, rfl⟩
      ∃ tx, createCoinbase (fun _ => .null) chainparams none [op1] 1000 500000 = .ok tx
        ∧ contextualCheckRewards chainparams 1000 tx = .ok ()
        ∧ connectCheckRewards chainparams 1000 500000 tx = .ok () := by
  intro chainparams
  have shares : SharesWithin100 chainparams.consensus :=
    ⟨by rintro (_ | _ | _) <;> decide, by rintro (_ | _ | _) <;> decide, by decide, by decide⟩
  obtain ⟨built, accepted⟩ := createCoinbase_accepted (fun _ => .null) chainparams none [op1]
    shares (by decide : (1 : Int) ≤ 1000) (by decide) (by decide : (0 : Int) ≤ Int64.toInt 500000)
    (by decide)
  obtain ⟨tx, run⟩ := built.mpr fun _ => ⟨by decide, by decide⟩
  obtain ⟨_, _, contextual, connect⟩ := accepted tx run
  exact ⟨tx, run, contextual, connect⟩

end Resistance.Mining

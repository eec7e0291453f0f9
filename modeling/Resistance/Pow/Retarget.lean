import Resistance.Pow.ChainWork

/-! Difficulty retargeting: along a chain whose headers pass their contextual checks the median
of past times never falls, and the next target is computed as it would be with unbounded
integers, never above the limit.
-/

namespace Resistance.Pow

open List Primitives Arith Lib.Checks Lib.OrderStatistic ArithUint256 UInt32

/-- `powLimit`, as an integer. -/
def PowParams.limit (params : PowParams) : Nat := (uintToArith256 params.powLimit).value

variable {getHash : CBlockHeader → Uint256} {params : PowParams} {genesis : CBlockHeader}
  {chain pprev below : HeaderChain} {pindex prev : HeaderIndex} {block : CBlockHeader}

/-- What `ContextualCheckBlockHeader` checks of a header other than the genesis block's. -/
theorem PassesContext.cases (passes : PassesContext getHash params block pprev)
    : pprev ≠ [] ∧ getNextWorkRequired pprev (some block) params = .ok block.nBits
      ∧ getMedianTimePast pprev < getBlockTime block := by
  obtain ⟨other, pcheckpoint, checked⟩ := passes
  unfold contextualCheckBlockHeader at checked
  cases pprev with
  | nil => simp [other] at checked
  | cons prev below =>
    simp only [other, if_false, bind_ok, throwIf_ok] at checked
    obtain ⟨required, run, _, bits, _, time, _⟩ := checked
    rw [not_not.mp bits]
    exact ⟨cons_ne_nil _ _, run, Int.not_le.mp time⟩

/-- A header later than the median of the past keeps the median from falling. -/
theorem getMedianTimePast_le (nonempty : pprev ≠ [])
    (later : getMedianTimePast pprev < pindex.getBlockTime)
    : getMedianTimePast pprev ≤ getMedianTimePast (pindex :: pprev) := by
  have window : (pprev.take 10).Sublist (pprev.take nMedianTimeSpan) :=
    (take_prefix_take_left (by decide)).sublist
  refine median_le_median ?_ later.le (window.map _) ?_
  · simp [nMedianTimeSpan, nonempty]
  · simp only [length_map, length_take, nMedianTimeSpan]
    omega

theorem Grows.getMedianTimePast_le
    (grown : Grows (PassesContext getHash params) genesis (pindex :: prev :: below))
    : getMedianTimePast (prev :: below) ≤ getMedianTimePast (pindex :: prev :: below) := by
  obtain ⟨_, _, split, ⟨empty, -⟩ | ⟨block, -, passes, added⟩⟩ := grown.cons
  · cases split
    cases empty
  obtain ⟨_, same, -, sameTime, -⟩ := addToBlockIndex_ok added
  cases same
  obtain ⟨nonempty, -, later⟩ := passes.cases
  refine Pow.getMedianTimePast_le nonempty ?_
  rw [HeaderIndex.getBlockTime, sameTime]
  exact later

/-- The target of an index, as an integer. -/
def HeaderIndex.target (pindex : HeaderIndex) : Nat :=
  (ArithUint256.setCompact pindex.nBits).target.value

/-- The average of the targets in the averaging window. -/
def averageTarget (params : PowParams) (chain : HeaderChain) : Nat :=
  ((chain.take params.nPowAveragingWindow).map HeaderIndex.target).sum
    / params.nPowAveragingWindow

/-- The height of the next block. -/
def nextHeight (chain : HeaderChain) : Int := (chain.head?.map (·.nHeight)).getD 0 + 1

/-- The timespan that the next target is scaled by. -/
def nextTimespan (params : PowParams) (chain : HeaderChain) : Int :=
  boundedTimespan (getMedianTimePast chain)
    (getMedianTimePast (chain.drop params.nPowAveragingWindow)) params (nextHeight chain)

/-- The target of the next block with unbounded integers, before the limit is applied. -/
def scaledTarget (params : PowParams) (chain : HeaderChain) : Nat :=
  averageTarget params chain / (params.averagingWindowTimespan (nextHeight chain)).toNat
    * (nextTimespan params chain).toNat

/-- The target of the next block with unbounded integers. -/
def exactTarget (params : PowParams) (chain : HeaderChain) : Nat :=
  if chain.length ≤ params.nPowAveragingWindow then params.limit
  else min (scaledTarget params chain) params.limit

/-- Parameters under which retargeting stays within 256 bits. -/
structure Safe (params : PowParams) : Prop where
  everAveraged : params.nPowAllowMinDifficultyBlocksAfterHeight = none
  window : 0 < params.nPowAveragingWindow
  sum : params.nPowAveragingWindow * params.limit < 2 ^ 256
  window64 : params.nPowAveragingWindow < 2 ^ 64
  timespan : ∀ height, 0 < params.averagingWindowTimespan height
  timespan64 : ∀ height, params.averagingWindowTimespan height < 2 ^ 64
  lowest : ∀ height, 0 < params.minActualTimespan height
  ordered : ∀ height, params.minActualTimespan height ≤ params.maxActualTimespan height
  highest : ∀ height, params.maxActualTimespan height < 2 ^ 32
  product : ∀ height,
    params.limit / (params.averagingWindowTimespan height).toNat
      * (params.maxActualTimespan height).toNat < 2 ^ 256

theorem averagingWindowTimespan_main (height : Int)
    : PowParams.main.averagingWindowTimespan height = 1020 := by
  unfold PowParams.averagingWindowTimespan PowParams.poWTargetSpacing
  split <;> rfl

theorem minActualTimespan_main (height : Int)
    : PowParams.main.minActualTimespan height = 856 := by
  rfl

theorem maxActualTimespan_main (height : Int)
    : PowParams.main.maxActualTimespan height = 1346 := by
  rfl

theorem limit_main : PowParams.main.limit = 2 ^ 243 - 1 := by decide +kernel

theorem safe_main : Safe PowParams.main where
  everAveraged := rfl
  window := by decide
  sum := by rw [limit_main]; decide
  window64 := by decide
  timespan height := by rw [averagingWindowTimespan_main]; decide
  timespan64 height := by rw [averagingWindowTimespan_main]; decide
  lowest height := by rw [minActualTimespan_main]; decide
  ordered height := by rw [minActualTimespan_main, maxActualTimespan_main]; decide
  highest height := by rw [maxActualTimespan_main]; decide
  product height := by
    rw [averagingWindowTimespan_main, maxActualTimespan_main]
    decide +kernel

theorem boundedTimespan_mem (safe : Safe params) (nLastBlockTime nFirstBlockTime height : Int)
    : params.minActualTimespan height
        ≤ boundedTimespan nLastBlockTime nFirstBlockTime params height
      ∧ boundedTimespan nLastBlockTime nFirstBlockTime params height
        ≤ params.maxActualTimespan height := by
  have ordered := safe.ordered height
  unfold boundedTimespan
  simp only
  split <;> split <;> omega

theorem toNat_ofInt32 {x} (nonnegative : 0 ≤ x) (small : x < 2 ^ 32)
    : (ofInt x).toNat = x.toNat := by
  rw [ofInt, Int.emod_eq_of_lt nonnegative small]
  exact toNat_ofNat_of_lt' (by simp only [size]; omega)

/-- Scaling an average within the limit does not wrap around. -/
theorem nextTarget_eq (safe : Safe params) {bnAvg} (within : bnAvg.value ≤ params.limit)
    (nLastBlockTime nFirstBlockTime height : Int)
    : ∃ bnNew, nextTarget bnAvg nLastBlockTime nFirstBlockTime params height = .ok bnNew
      ∧ bnNew.value = min
        (bnAvg.value / (params.averagingWindowTimespan height).toNat
          * (boundedTimespan nLastBlockTime nFirstBlockTime params height).toNat)
        params.limit := by
  obtain ⟨low, high⟩ := boundedTimespan_mem safe nLastBlockTime nFirstBlockTime height
  have timespan := safe.timespan height
  have lowest := safe.lowest height
  have highest := safe.highest height
  have divisor : (ofUInt64
      (UInt64.ofInt (params.averagingWindowTimespan height))).value
      = (params.averagingWindowTimespan height).toNat := by
    have range := safe.timespan64 height
    rw [value_ofUInt64, ← Int.toNat_of_nonneg timespan.le, Lib.MachineInt.toNat_ofInt (by omega),
      Int.toNat_natCast]
  obtain ⟨quotient, divided, floor⟩ := div_ok (a := bnAvg)
    (b := .ofUInt64 (UInt64.ofInt (params.averagingWindowTimespan height)))
    (by rw [divisor]; omega)
  rw [divisor] at floor
  unfold nextTarget
  generalize boundedTimespan nLastBlockTime nFirstBlockTime params height = scale at *
  have fits : scale.toNat * quotient.value < 2 ^ 256 := by
    refine lt_of_le_of_lt ?_ (safe.product height)
    rw [floor, Nat.mul_comm]
    exact Nat.mul_le_mul (Nat.div_le_div_right within) (by omega)
  have exact : (quotient.mul32 (ofInt scale)).value
      = bnAvg.value / (params.averagingWindowTimespan height).toNat * scale.toNat := by
    rw [value_mul32, toNat_ofInt32 (by omega) (by omega), Nat.mod_eq_of_lt fits,
      floor, Nat.mul_comm]
  simp only [divided]
  refine ⟨_, rfl, ?_⟩
  rw [← exact]
  split
  next above =>
    rw [greater_iff] at above
    exact (min_eq_right above.le).symm
  next below =>
    rw [greater_iff] at below
    exact (min_eq_left (Nat.not_lt.mp below)).symm

/-- A sum of targets that fits in 256 bits is exact, and the loop stops past the window. -/
theorem averagingLoop_eq (remaining : Nat) (bnTot : ArithUint256)
    (fits : bnTot.value + ((chain.take remaining).map HeaderIndex.target).sum < 2 ^ 256)
    : (averagingLoop remaining chain bnTot).1.value
        = bnTot.value + ((chain.take remaining).map HeaderIndex.target).sum
      ∧ (averagingLoop remaining chain bnTot).2 = chain.drop remaining := by
  induction remaining generalizing chain bnTot with
  | zero => simp [averagingLoop]
  | succ remaining ih =>
    cases chain with
    | nil => simp [averagingLoop]
    | cons pindex pprev =>
      rw [take_succ_cons, map_cons, sum_cons, ← Nat.add_assoc] at fits ⊢
      have added : (bnTot.add (setCompact pindex.nBits).target).value
          = bnTot.value + pindex.target := by
        rw [value_add]
        exact Nat.mod_eq_of_lt (Nat.lt_of_le_of_lt (Nat.le_add_right ..) fits)
      rw [← added]
      exact ih _ (by rwa [added])

/-- Every target of the chain is within the limit. -/
def Within (params : PowParams) (chain : HeaderChain) : Prop :=
  ∀ pindex ∈ chain, pindex.target ≤ params.limit

theorem sum_targets_le (within : Within params chain)
    : ((chain.take params.nPowAveragingWindow).map HeaderIndex.target).sum
      ≤ params.nPowAveragingWindow * params.limit := by
  have each : ∀ t ∈ (chain.take params.nPowAveragingWindow).map HeaderIndex.target,
      t ≤ params.limit :=
    forall_mem_map.mpr fun pindex inside => within pindex (mem_of_mem_take inside)
  refine (sum_le_card_nsmul _ _ each).trans ?_
  rw [length_map]
  exact Nat.mul_le_mul_right _ (length_take_le ..)

/-- The next target is the one with unbounded integers. -/
theorem getNextWorkRequired_eq (safe : Safe params) (within : Within params chain)
    (nonempty : chain ≠ []) (pblock : Option CBlockHeader)
    : ∃ bnNew : ArithUint256,
      getNextWorkRequired chain pblock params = .ok bnNew.getCompact
        ∧ bnNew.value = exactTarget params chain := by
  obtain ⟨last, rest, rfl⟩ := exists_cons_of_ne_nil nonempty
  have zero : (ofUInt64 0).value = 0 := value_ofUInt64 0
  have bound := sum_targets_le within
  obtain ⟨total, first⟩ := averagingLoop_eq params.nPowAveragingWindow (.ofUInt64 0)
    (by rw [zero, Nat.zero_add]; exact bound.trans_lt safe.sum)
  rw [zero, Nat.zero_add] at total
  unfold getNextWorkRequired exactTarget
  simp only [safe.everAveraged]
  generalize averagingLoop params.nPowAveragingWindow (last :: rest) (.ofUInt64 0) = loop at *
  obtain ⟨bnTot, pindexFirst⟩ := loop
  simp only at total first
  by_cases short : (last :: rest).length ≤ params.nPowAveragingWindow
  · rw [drop_eq_nil_of_le short] at first
    subst first
    rw [if_pos short]
    exact ⟨_, rfl, rfl⟩
  · have divisor : (ofUInt64 (UInt64.ofNat params.nPowAveragingWindow)).value
        = params.nPowAveragingWindow := by
      rw [value_ofUInt64]
      exact UInt64.toNat_ofNat_of_lt' safe.window64
    obtain ⟨bnAvg, divided, floor⟩ := div_ok (a := bnTot)
      (b := .ofUInt64 (UInt64.ofNat params.nPowAveragingWindow))
      (by rw [divisor]; exact safe.window.ne')
    rw [divisor, total] at floor
    have average : bnAvg.value ≤ params.limit := by
      rw [floor]
      exact Nat.div_le_of_le_mul bound
    obtain ⟨bnNew, run, value⟩ := nextTarget_eq safe average (getMedianTimePast (last :: rest))
      (getMedianTimePast pindexFirst) (last.nHeight + 1)
    refine ⟨bnNew, ?_, ?_⟩
    · cases pindexFirst with
      | nil => exact absurd (drop_eq_nil_iff.mp first.symm) short
      | cons head tail =>
        simp only [divided, ok_bind, calculateNextWorkRequired, run]
        rfl
    · rw [value, floor, first, if_neg short]
      rfl

theorem exactTarget_le (params : PowParams) (chain : HeaderChain)
    : exactTarget params chain ≤ params.limit := by
  unfold exactTarget
  split
  · exact Nat.le_refl _
  · exact min_le_right _ _

/-- Every target of a chain is within the limit, where the genesis block's is. -/
theorem Grows.within (safe : Safe params)
    (start : (setCompact genesis.nBits).target.value ≤ params.limit)
    (grown : Grows (PassesContext getHash params) genesis chain)
    : Within params chain := by
  induction grown with
  | genesis added =>
    obtain ⟨pindex, rfl, sameBits, -⟩ := addToBlockIndex_ok added
    intro _ mem
    obtain rfl := mem_singleton.mp mem
    rwa [HeaderIndex.target, sameBits]
  | next grown passes added ih =>
    obtain ⟨pindex, rfl, sameBits, -⟩ := addToBlockIndex_ok added
    obtain ⟨nonempty, required, -⟩ := passes.cases
    obtain ⟨bnNew, run, value⟩ := getNextWorkRequired_eq safe ih nonempty (some _)
    have bits := Except.ok.inj (required.symm.trans run)
    intro other mem
    rcases mem_cons.mp mem with rfl | earlier
    · obtain ⟨-, -, rounded, -⟩ := setCompact_getCompact bnNew
      rw [HeaderIndex.target, sameBits, bits, (setCompact_eq _).1]
      exact rounded.trans (value.trans_le (exactTarget_le params _))
    · exact ih other earlier

/-- A scaled average lies between the average's share of the smallest and of the largest
timespan, and fits in 256 bits.
-/
theorem scaledTarget_mem (safe : Safe params) (within : Within params chain)
    : averageTarget params chain / (params.averagingWindowTimespan (nextHeight chain)).toNat
          * (params.minActualTimespan (nextHeight chain)).toNat
        ≤ scaledTarget params chain
      ∧ scaledTarget params chain
        ≤ averageTarget params chain / (params.averagingWindowTimespan (nextHeight chain)).toNat
          * (params.maxActualTimespan (nextHeight chain)).toNat
      ∧ scaledTarget params chain < 2 ^ 256 := by
  obtain ⟨low, high⟩ := boundedTimespan_mem safe (getMedianTimePast chain)
    (getMedianTimePast (chain.drop params.nPowAveragingWindow)) (nextHeight chain)
  have upper := Nat.mul_le_mul_left
    (averageTarget params chain / (params.averagingWindowTimespan (nextHeight chain)).toNat)
    (Int.toNat_le_toNat high)
  have average : averageTarget params chain ≤ params.limit :=
    Nat.div_le_of_le_mul (sum_targets_le within)
  refine ⟨Nat.mul_le_mul_left _ (Int.toNat_le_toNat low), upper, ?_⟩
  calc scaledTarget params chain
      ≤ averageTarget params chain / (params.averagingWindowTimespan (nextHeight chain)).toNat
        * (params.maxActualTimespan (nextHeight chain)).toNat := upper
    _ ≤ params.limit / (params.averagingWindowTimespan (nextHeight chain)).toNat
        * (params.maxActualTimespan (nextHeight chain)).toNat :=
        Nat.mul_le_mul_right _ (Nat.div_le_div_right average)
    _ < 2 ^ 256 := safe.product _

/-- An average that is at least the timespan leaves a target other than zero. -/
theorem exactTarget_ne_zero (safe : Safe params) (within : Within params chain)
    (full : params.nPowAveragingWindow < chain.length) (pos : params.limit ≠ 0)
    (large : (params.averagingWindowTimespan (nextHeight chain)).toNat
      ≤ averageTarget params chain)
    : exactTarget params chain ≠ 0 := by
  have timespan := safe.timespan (nextHeight chain)
  have lowest := safe.lowest (nextHeight chain)
  have share : 0 < averageTarget params chain
      / (params.averagingWindowTimespan (nextHeight chain)).toNat :=
    Nat.div_pos large (by omega)
  have lower := (scaledTarget_mem safe within).1
  have scaled : 0 < scaledTarget params chain :=
    Nat.lt_of_lt_of_le (Nat.mul_pos share (by omega)) lower
  rw [exactTarget, if_neg (Nat.not_le.mpr full)]
  exact (lt_min scaled (Nat.pos_of_ne_zero pos)).ne'

/-- Along a chain of the main network whose headers `ContextualCheckBlockHeader` accepts, the
median of past times never falls. For every tip, `GetNextWorkRequired` returns the compact form
of the target computed with unbounded integers, whose sums and products fit in 256 bits, and
which decodes without a flag to at most `powLimit`. Where the average `A` of a full window is
at least the timespan `W`, that target lies between `A / W` times the smallest and the largest
timespan, unless it is the limit, and decodes to something other than zero.
-/
theorem retarget_safe (start : genesis.nBits = 0x1f07ffff)
    (grown : Grows (PassesContext getHash .main) genesis chain)
    : (∀ pindex prev below, (pindex :: prev :: below) <:+ chain →
        getMedianTimePast (prev :: below) ≤ getMedianTimePast (pindex :: prev :: below))
      ∧ ∀ tip below pblock, (tip :: below) <:+ chain →
        ∃ bnNew : ArithUint256,
          getNextWorkRequired (tip :: below) pblock .main = .ok bnNew.getCompact
          ∧ bnNew.value = exactTarget .main (tip :: below)
          ∧ (((tip :: below).take PowParams.main.nPowAveragingWindow).map
              HeaderIndex.target).sum < 2 ^ 256
          ∧ scaledTarget .main (tip :: below) < 2 ^ 256
          ∧ (ArithUint256.setCompact bnNew.getCompact).fNegative = false
          ∧ (ArithUint256.setCompact bnNew.getCompact).fOverflow = false
          ∧ (ArithUint256.setCompact bnNew.getCompact).target.value ≤ PowParams.main.limit
          ∧ (PowParams.main.nPowAveragingWindow < (tip :: below).length →
            ∀ A W, A = averageTarget .main (tip :: below) →
              W = (PowParams.main.averagingWindowTimespan (tip.nHeight + 1)).toNat →
              W ≤ A →
              (∃ scaled, A / W * (PowParams.main.minActualTimespan (tip.nHeight + 1)).toNat ≤ scaled
                ∧ scaled ≤ A / W * (PowParams.main.maxActualTimespan (tip.nHeight + 1)).toNat
                ∧ bnNew.value = min scaled PowParams.main.limit)
              ∧ (ArithUint256.setCompact bnNew.getCompact).target.value ≠ 0) := by
  have first : (setCompact genesis.nBits).target.value ≤ PowParams.main.limit := by
    rw [start]
    decide +kernel
  have within := grown.within safe_main first
  refine ⟨fun _ _ _ part => (grown.suffix part).getMedianTimePast_le, ?_⟩
  intro tip below pblock part
  have inside : Within .main (tip :: below) := fun pindex mem => within pindex (part.subset mem)
  obtain ⟨bnNew, run, value⟩ :=
    getNextWorkRequired_eq safe_main inside (cons_ne_nil tip below) pblock
  obtain ⟨low, high, product⟩ := scaledTarget_mem safe_main inside
  obtain ⟨nonnegative, inRange, rounded, kept⟩ := setCompact_getCompact bnNew
  obtain ⟨sameTarget, sameSign, sameRange⟩ := setCompact_eq bnNew.getCompact
  rw [← sameTarget] at rounded kept
  refine ⟨bnNew, run, value, (sum_targets_le inside).trans_lt safe_main.sum, product,
    sameSign.trans nonnegative, sameRange.trans inRange,
    rounded.trans (value.trans_le (exactTarget_le _ _)), ?_⟩
  rintro full A W rfl rfl large
  refine ⟨⟨scaledTarget .main (tip :: below), low, high, ?_⟩, kept ?_⟩
  · rw [value, exactTarget, if_neg (Nat.not_le.mpr full)]
  · rw [value]
    exact exactTarget_ne_zero safe_main inside full (by rw [limit_main]; decide) large

-- Blocks a minute apart, as many as fill the averaging window.
def steadyHeader (n : Nat) : CBlockHeader :=
  { nTime := 1564407265 + 60 * UInt32.ofNat n, nBits := 0x1f07ffff }

def steadyWork : Nat → ArithUint256
  | 0 => .ofUInt64 8192
  | n + 1 => (steadyWork n).add (.ofUInt64 8192)

def steadyChain : Nat → HeaderChain
  | 0 => genesisChain
  | n + 1 => {
      nHeight := n + 1
      nTime := (steadyHeader (n + 1)).nTime
      nBits := (steadyHeader (n + 1)).nBits
      nChainWork := steadyWork (n + 1)
    } :: steadyChain n

theorem steadyChain_added (n : Nat)
    : addToBlockIndex (steadyHeader (n + 1)) (steadyChain n) = .ok (steadyChain (n + 1)) := by
  have proof : getBlockProof (steadyHeader (n + 1)).nBits = .ok (.ofUInt64 8192) := by
    change getBlockProof 0x1f07ffff = _
    decide +kernel
  unfold addToBlockIndex
  rw [proof]
  cases n with
  | zero => rfl
  | succ n => rfl

theorem steadyChain_passes
    : ∀ n < 17, contextualCheckBlockHeader (fun _ => .null) (steadyHeader (n + 1)) .main
        (steadyChain n) none = .ok () := by
  decide +kernel

theorem steadyChain_grows {n} (short : n ≤ 17)
    : Grows (PassesContext (fun _ => .null) .main) genesisHeader (steadyChain n) := by
  induction n with
  | zero => exact .genesis genesisChain_added
  | succ n ih =>
    have other : Uint256.null ≠ PowParams.main.hashGenesisBlock := by decide
    exact (ih (Nat.le_of_succ_le short)).next ⟨other, none, steadyChain_passes n short⟩
      (steadyChain_added n)

theorem retarget_safe_steadyChain
    : genesisHeader.nBits = 0x1f07ffff
      ∧ 1020 ≤ averageTarget .main (steadyChain 17)
      ∧ ∃ bnNew : ArithUint256,
        getNextWorkRequired (steadyChain 17) none .main = .ok bnNew.getCompact
        ∧ (ArithUint256.setCompact bnNew.getCompact).target.value ≠ 0 := by
  have large : 1020 ≤ averageTarget .main (steadyChain 17) := by decide +kernel
  obtain ⟨-, every⟩ := retarget_safe rfl (steadyChain_grows (Nat.le_refl 17))
  obtain ⟨bnNew, run, -, -, -, -, -, -, full⟩ := every _ (steadyChain 16) none suffix_rfl
  exact ⟨rfl, large, bnNew, run, (full (by decide) _ _ rfl rfl large).2⟩

end Resistance.Pow

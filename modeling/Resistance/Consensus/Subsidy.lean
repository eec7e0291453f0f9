import Mathlib.Algebra.BigOperators.Ring.Finset
import Mathlib.Algebra.Order.BigOperators.Group.Finset
import Mathlib.Data.Nat.Cast.Order.Field
import Mathlib.Tactic.FieldSimp
import Mathlib.Tactic.Linarith
import Resistance.Consensus.Params

/-! `GetBlockSubsidy`: a premine, a linear slow start and linearly decreasing epochs whose
start is halved each time. In exact arithmetic the schedule sums to `MAX_MONEY` with no slack.
-/

namespace Resistance.Consensus

open Primitives Lib MachineInt Finset Nat Option Params UInt64

/-- `GetBlockSubsidy`, with `int` heights, `unsigned long long` products where a factor has
the suffix `ULL`, and `CAmount` elsewhere. -/
def getBlockSubsidy (nHeight : Int) (params : Params) : CAmount :=
  let slowStart := params.nSubsidySlowStartHeight
  let slowStartEnd := params.nSubsidySlowStartHeight + params.nSubsidySlowStartInterval
  let interval := params.nSubsidyHalvingInterval
  if nHeight ≥ 21 ∧ nHeight ≤ 80 then (1000000 * coin.toUInt64).toInt64
  else if nHeight < slowStart then 0
  else if nHeight < slowStartEnd then
    let relHeight := nHeight - slowStart + 1
    (20 * coin.toUInt64 * UInt64.ofInt relHeight
      / UInt64.ofInt params.nSubsidySlowStartInterval).toInt64
  else
    let relHeight := nHeight - slowStartEnd + 1
    let halvings := relHeight.tdiv interval
    let relHeight := relHeight.tmod interval
    -- Ensure the right shift's behavior is defined
    let halvings := if halvings > 63 then 63 else halvings
    let nSubsidy := ((20 * coin.toUInt64) >>> UInt64.ofInt halvings).toInt64
    nSubsidy / 2
      + nSubsidy * Int64.ofInt (interval - relHeight) / Int64.ofInt (2 * interval)

-- A result that must lie in the range of its C++ type.
def inInt (x : Int) : Option Int := if -2 ^ 31 ≤ x ∧ x < 2 ^ 31 then some x else none
def inInt64 (x : Int) : Option Int := if -2 ^ 63 ≤ x ∧ x < 2 ^ 63 then some x else none

-- The last line of `GetBlockSubsidy`, with every operation checked.
def epochShareChecked (nSubsidy remaining interval : Int) : Option Int := do
  let remaining ← inInt remaining
  let product ← inInt64 (nSubsidy * remaining)
  let twice ← inInt (2 * interval)
  inInt64 (nSubsidy.tdiv 2 + product.tdiv twice)

/-- `GetBlockSubsidy` in exact arithmetic, failing as soon as an intermediate result leaves
the range of its type.
-/
def getBlockSubsidyChecked (nHeight : Int) (params : Params) : Option Int :=
  if nHeight ≥ 21 ∧ nHeight ≤ 80 then do
    let nSubsidy ← inUInt64 (1000000 * coin.toInt)
    inInt64 nSubsidy
  else if nHeight < params.nSubsidySlowStartHeight then some 0
  else do
    let slowStartEnd ←
      inInt (params.nSubsidySlowStartHeight + params.nSubsidySlowStartInterval)
    let full ← inUInt64 (20 * coin.toInt)
    if nHeight < slowStartEnd then
      let relHeight ← inInt (nHeight - params.nSubsidySlowStartHeight)
      let relHeight ← inInt (relHeight + 1)
      let product ← inUInt64 (full * relHeight)
      inInt64 (product.tdiv params.nSubsidySlowStartInterval)
    else
      let relHeight ← inInt (nHeight - slowStartEnd)
      let relHeight ← inInt (relHeight + 1)
      let halvings := relHeight.tdiv params.nSubsidyHalvingInterval
      let relHeight := relHeight.tmod params.nSubsidyHalvingInterval
      let halvings := if halvings > 63 then 63 else halvings
      let nSubsidy ← inInt64 (full / 2 ^ halvings.toNat)
      epochShareChecked nSubsidy (params.nSubsidyHalvingInterval - relHeight)
        params.nSubsidyHalvingInterval

/-- The subsidy of the `n`-th block after the slow start. -/
def epochSubsidy (interval n : Nat) : Nat :=
  let full := 2000000000 / 2 ^ (n / interval)
  full / 2 + full * (interval - n % interval) / (2 * interval)

def scheduledSubsidy (slowStart slowStartInterval interval h : Nat) : Nat :=
  if 21 ≤ h ∧ h ≤ 80 then 100000000000000
  else if h < slowStart then 0
  else if h < slowStart + slowStartInterval then
    2000000000 * (h - slowStart + 1) / slowStartInterval
  else epochSubsidy interval (h - (slowStart + slowStartInterval) + 1)

/-- The schedule of a network. -/
def Params.subsidy (params : Params) (h : Nat) : Nat :=
  scheduledSubsidy params.nSubsidySlowStartHeight.toNat
    params.nSubsidySlowStartInterval.toNat params.nSubsidyHalvingInterval.toNat h

/-- The schedule's parameters as natural numbers. -/
theorem Params.schedule_nat (params : Params)
    : ∃ start slow interval : Nat, params.nSubsidySlowStartHeight = start
      ∧ params.nSubsidySlowStartInterval = slow ∧ params.nSubsidyHalvingInterval = interval
      ∧ 0 < slow ∧ 0 < interval ∧ (start : Int) + slow ≤ intMax
      ∧ 2 * (interval : Int) ≤ intMax := by
  obtain ⟨start, start_eq⟩ := Int.eq_ofNat_of_zero_le params.slowStartHeight_nonneg
  obtain ⟨slow, slow_eq⟩ := Int.eq_ofNat_of_zero_le params.slowStartInterval_pos.le
  obtain ⟨interval, interval_eq⟩ := Int.eq_ofNat_of_zero_le params.halvingInterval_pos.le
  have slow_pos := params.slowStartInterval_pos
  have interval_pos := params.halvingInterval_pos
  have end_le := params.slowStartEnd_le
  have twice_le := params.halvingInterval_le
  rw [slow_eq] at slow_pos end_le
  rw [interval_eq] at interval_pos twice_le
  rw [start_eq] at end_le
  exact ⟨start, slow, interval, start_eq, slow_eq, interval_eq, by omega, by omega, end_le,
    twice_le⟩

theorem inInt_eq {x} (low : 0 ≤ x) (high : x ≤ intMax) : inInt x = some x :=
  if_pos ⟨by omega, by simp only [intMax] at high; omega⟩

theorem inInt64_eq {x} (low : 0 ≤ x) (high : x < 2 ^ 63) : inInt64 x = some x :=
  if_pos ⟨by omega, high⟩

/-- From the 63rd halving on nothing is left, so that the cap on the shift changes nothing. -/
theorem full_capped (k : Nat)
    : (2000000000 : Nat) / 2 ^ (if (k : Int) > 63 then (63 : Int) else k).toNat
      = 2000000000 / 2 ^ k := by
  split
  next large =>
    have exhausted : 2000000000 < 2 ^ k :=
      lt_of_lt_of_le (by decide : 2000000000 < 2 ^ 63)
        (Nat.pow_le_pow_right (by decide) (by omega))
    rw [div_eq_of_lt exhausted]
    rfl
  · rfl

theorem epochFull_le (k : Nat) : 2000000000 / 2 ^ k ≤ 2000000000 :=
  div_le_self _ _

variable {interval h slow : Nat}

/-- A share of an epoch's subsidy stays within the subsidy. -/
theorem share_le (full : Nat) {remaining} (remaining_le : remaining ≤ interval)
    (interval_pos : 0 < interval)
    : full / 2 + full * remaining / (2 * interval) ≤ full := by
  have product : full * remaining / (2 * interval) ≤ full / 2 := by
    calc full * remaining / (2 * interval)
      _ ≤ full * interval / (2 * interval) :=
          Nat.div_le_div_right (mul_le_mul_left full remaining_le)
      _ = full / 2 := Nat.mul_div_mul_right full 2 interval_pos
  omega

section

variable {full remaining : Nat} (full_le : full ≤ 2000000000) (remaining_le : remaining ≤ interval)
  (interval_pos : 0 < interval) (twice_le : 2 * (interval : Int) ≤ intMax)
include full_le remaining_le interval_pos twice_le

theorem epochShareChecked_eq
    : epochShareChecked full remaining interval
      = some ((full / 2 + full * remaining / (2 * interval) : Nat) : Int) := by
  have product : (full : Int) * remaining = (full * remaining : Nat) := by push_cast; rfl
  have product_le : full * remaining ≤ 2000000000 * interval := Nat.mul_le_mul full_le remaining_le
  have small : full * remaining < 2 ^ 63 := by
    simp only [intMax] at twice_le
    omega
  have value : (full : Int).tdiv 2 + ((full * remaining : Nat) : Int).tdiv (2 * interval)
      = (full / 2 + full * remaining / (2 * interval) : Nat) := by
    rfl
  have total := share_le full remaining_le interval_pos
  simp only [epochShareChecked, bind_eq_bind]
  rw [inInt_eq (by omega) (by omega), bind_some, product,
    inInt64_eq (by omega) (by exact_mod_cast small), bind_some,
    inInt_eq (by omega) twice_le, bind_some, value]
  exact inInt64_eq (Int.natCast_nonneg _)
    (by exact_mod_cast (total.trans full_le).trans_lt (by decide))

/-- The 64-bit computation of a share is exact. -/
theorem epochShare_toInt {nSubsidy : CAmount} (subsidy : nSubsidy.toInt = full)
    : (nSubsidy / 2 + nSubsidy * Int64.ofInt remaining / Int64.ofInt (2 * interval)).toInt
      = (full / 2 + full * remaining / (2 * interval) : Nat) := by
  have two : (2 : Int64).toInt = 2 := by decide
  have product_le : (full * remaining : Int) ≤ 2000000000 * interval := by
    exact_mod_cast Nat.mul_le_mul full_le remaining_le
  have nonneg : (0 : Int) ≤ full * remaining := by positivity
  have total := share_le full remaining_le interval_pos
  simp only [intMax] at twice_le
  have remainingInt : (Int64.ofInt remaining).toInt = remaining := toInt_ofInt ⟨by omega, by omega⟩
  have twiceInt : (Int64.ofInt (2 * interval)).toInt = 2 * interval :=
    toInt_ofInt ⟨by omega, by omega⟩
  have product : (nSubsidy * Int64.ofInt remaining).toInt = full * remaining := by
    rw [toInt_mul (by rw [subsidy, remainingInt]; exact ⟨by omega, by omega⟩), subsidy,
      remainingInt]
  have sum : (nSubsidy / 2).toInt
        + (nSubsidy * Int64.ofInt remaining / Int64.ofInt (2 * interval)).toInt
      = (full / 2 + full * remaining / (2 * interval) : Nat) := by
    rw [toInt_div (by omega) (by omega), toInt_div (by omega) (by omega), product, subsidy,
      twiceInt]
    rfl
  generalize full / 2 + full * remaining / (2 * interval) = share at total sum ⊢
  rw [toInt_add (by rw [sum]; exact ⟨by omega, by omega⟩), sum]

end

/-- How the code finds the place of a block in the epochs. -/
theorem epoch_cast (interval_pos : 0 < interval) (rel : Nat)
    : (rel : Int).tdiv interval = (rel / interval : Nat)
      ∧ (interval : Int) - (rel : Int).tmod interval = (interval - rel % interval : Nat) := by
  have below := mod_lt rel interval_pos
  refine ⟨(Int.ofNat_tdiv rel interval).symm, ?_⟩
  rw [← Int.ofNat_tmod]
  omega

theorem slowStart_le {n} (inside : n ≤ slow) : 2000000000 * n / slow ≤ 2000000000 := by
  refine Nat.div_le_of_le_mul ?_
  rw [mul_comm slow]
  exact mul_le_mul_left _ inside

/-- Nothing overflows at any height: the checked subsidy is that of the schedule. -/
theorem getBlockSubsidyChecked_eq (params : Params) (bound : (h : Int) ≤ intMax)
    : getBlockSubsidyChecked h params = some (params.subsidy h : Int) := by
  obtain ⟨start, slow, interval, start_eq, slow_eq, interval_eq, slow_pos, interval_pos,
    end_le, twice_le⟩ := params.schedule_nat
  have full : inUInt64 (20 * coin.toInt) = some 2000000000 := by
    exact inUInt64_eq (by decide) (by decide)
  simp only [getBlockSubsidyChecked, subsidy, scheduledSubsidy, start_eq, slow_eq,
    interval_eq, Int.toNat_natCast, full]
  by_cases premine : 21 ≤ h ∧ h ≤ 80
  · rw [if_pos (by omega), if_pos premine]
    rfl
  rw [if_neg (by omega), if_neg premine]
  by_cases early : h < start
  · rw [if_pos (by omega), if_pos early]
    rfl
  rw [if_neg (by omega), if_neg early, inInt_eq (by omega) end_le]
  simp only [bind_eq_bind, bind_some]
  by_cases slowStart : h < start + slow
  · rw [if_pos (by omega), if_pos slowStart]
    have height : (h : Int) - start = (h - start : Nat) := by omega
    have quotient := slowStart_le (show h - start + 1 ≤ slow by omega)
    rw [height, inInt_eq (by omega) (by omega), bind_some,
      inInt_eq (by omega) (by omega), bind_some,
      inUInt64_eq (by omega) (by simp only [intMax] at bound; omega), bind_some,
      Int.tdiv_eq_ediv_of_nonneg (by omega)]
    exact inInt64_eq (Int.natCast_nonneg _) (by exact_mod_cast quotient.trans_lt (by decide))
  · rw [if_neg (by omega), if_neg slowStart]
    have height : (h : Int) - (start + slow) = (h - (start + slow) : Nat) := by omega
    rw [height, inInt_eq (by omega) (by omega), bind_some,
      inInt_eq (by omega) (by omega), bind_some]
    generalize rel_eq : h - (start + slow) + 1 = rel
    have relCast : ((h - (start + slow) : Nat) : Int) + 1 = rel := by omega
    rw [relCast]
    obtain ⟨quotient, remaining⟩ := epoch_cast interval_pos rel
    have shifted : (2000000000 : Int)
          / 2 ^ (if ((rel / interval : Nat) : Int) > 63 then (63 : Int)
            else (rel / interval : Nat)).toNat
        = (2000000000 / 2 ^ (rel / interval) : Nat) := by
      rw [← full_capped]
      rfl
    have full_le := epochFull_le (rel / interval)
    simp only [quotient, remaining, shifted]
    rw [inInt64_eq (Int.natCast_nonneg _) (by exact_mod_cast full_le.trans_lt (by decide)),
      bind_some]
    exact epochShareChecked_eq full_le (sub_le _ _) interval_pos twice_le

theorem epochFull_toInt (k : Nat)
    : ((20 * coin.toUInt64)
        >>> ofInt (if (k : Int) > 63 then 63 else k)).toInt64.toInt
      = (2000000000 / 2 ^ k : Nat) := by
  have full : (20 * coin.toUInt64).toNat = 2000000000 := by decide
  obtain ⟨shift, shift_eq⟩ : ∃ shift : Nat, (if (k : Int) > 63 then (63 : Int) else k) = shift :=
    Int.eq_ofNat_of_zero_le (by split <;> omega)
  have capped := full_capped k
  rw [shift_eq, Int.toNat_natCast] at capped
  have value : ((20 * coin.toUInt64) >>> ofInt shift).toNat
      = 2000000000 / 2 ^ k := by
    rw [UInt64.toNat_shiftRight, full, toNat_ofInt (by omega),
      mod_eq_of_lt (by omega), shiftRight_eq_div_pow, capped]
  have full_le := epochFull_le k
  rw [shift_eq, toInt_toInt64 (by rw [value]; omega), value]

/-- The value that `GetBlockSubsidy` returns is that of the schedule. -/
theorem getBlockSubsidy_toInt (params : Params) (bound : (h : Int) ≤ intMax)
    : (getBlockSubsidy h params).toInt = params.subsidy h := by
  obtain ⟨start, slow, interval, start_eq, slow_eq, interval_eq, slow_pos, interval_pos,
    end_le, twice_le⟩ := params.schedule_nat
  have full : (20 * coin.toUInt64).toNat = 2000000000 := by decide
  simp only [getBlockSubsidy, subsidy, scheduledSubsidy, start_eq, slow_eq,
    interval_eq, Int.toNat_natCast]
  by_cases premine : 21 ≤ h ∧ h ≤ 80
  · rw [if_pos (by omega), if_pos premine]
    decide
  rw [if_neg (by omega), if_neg premine]
  by_cases early : h < start
  · rw [if_pos (by omega), if_pos early]
    rfl
  rw [if_neg (by omega), if_neg early]
  simp only [intMax] at bound end_le
  by_cases slowStart : h < start + slow
  · rw [if_pos (by omega), if_pos slowStart]
    have height : (h : Int) - start + 1 = (h - start + 1 : Nat) := by omega
    have quotient := slowStart_le (show h - start + 1 ≤ slow by omega)
    have relHeight : (ofInt (h - start + 1 : Nat)).toNat = h - start + 1 := toNat_ofInt (by omega)
    have interval' : (ofInt slow).toNat = slow := toNat_ofInt (by omega)
    have value : (20 * coin.toUInt64 * ofInt (h - start + 1 : Nat)
        / ofInt slow).toNat = 2000000000 * (h - start + 1) / slow := by
      rw [UInt64.toNat_div, toNat_mul (by rw [full]; omega), full, relHeight, interval']
    rw [height, toInt_toInt64 (by rw [value]; omega), value]
  · rw [if_neg (by omega), if_neg slowStart]
    have height : (h : Int) - (start + slow) + 1 = (h - (start + slow) + 1 : Nat) := by
      omega
    rw [height]
    generalize rel_eq : h - (start + slow) + 1 = rel
    obtain ⟨quotient, remaining⟩ := epoch_cast interval_pos rel
    rw [remaining]
    exact epochShare_toInt (epochFull_le _) (sub_le _ _) interval_pos twice_le
      (epochFull_toInt _)

section

variable (interval_pos : 0 < interval) (n : Nat)
include interval_pos n

/-- The next block is in the same epoch, or the first one of the next. -/
theorem epoch_succ
    : (n % interval + 1 < interval ∧ (n + 1) / interval = n / interval
        ∧ (n + 1) % interval = n % interval + 1)
      ∨ (n % interval + 1 = interval ∧ (n + 1) / interval = n / interval + 1
        ∧ (n + 1) % interval = 0) := by
  have split_ := mod_add_div n interval
  have below := mod_lt n interval_pos
  rcases lt_or_ge (n % interval + 1) interval with inside | last
  · exact .inl ⟨inside, (Nat.div_mod_unique interval_pos).mpr ⟨by omega, inside⟩⟩
  · have whole : n % interval + 1 = interval := by omega
    refine .inr ⟨whole, (Nat.div_mod_unique interval_pos).mpr ⟨?_, interval_pos⟩⟩
    rw [mul_add]
    omega

theorem epochSubsidy_succ_le
    : epochSubsidy interval (n + 1) ≤ epochSubsidy interval n := by
  unfold epochSubsidy
  rcases epoch_succ interval_pos n with
    ⟨inside, quotient, remainder⟩ | ⟨last, quotient, remainder⟩
  · rw [quotient, remainder]
    have less : interval - (n % interval + 1) ≤ interval - n % interval := by omega
    exact Nat.add_le_add_left (Nat.div_le_div_right (mul_le_mul_left _ less)) _
  -- The next epoch starts at half of this one's full subsidy.
  rw [quotient, remainder, pow_succ, ← Nat.div_div_eq_div_mul]
  have start := share_le (2000000000 / 2 ^ (n / interval) / 2) (le_refl interval)
    interval_pos
  exact start.trans (le_add_right _ _)

end

theorem scheduledSubsidy_epoch {start} (premined : 80 < start + slow) (after : start + slow ≤ h)
    : scheduledSubsidy start slow interval h
      = epochSubsidy interval (h - (start + slow) + 1) := by
  rw [scheduledSubsidy, if_neg (by omega), if_neg (by omega), if_neg (by omega)]

/-- The slow start ends with the full subsidy, or with a premined block. -/
theorem full_le_scheduledSubsidy {start} (slow_pos : 0 < slow) (last : h + 1 = start + slow)
    : 2000000000 ≤ scheduledSubsidy start slow interval h := by
  unfold scheduledSubsidy
  split
  · decide
  · have height : h - start + 1 = slow := by omega
    rw [if_neg (by omega), if_pos (by omega), height, Nat.mul_div_cancel _ slow_pos]

/-- From the last block of the slow start on, the schedule never increases. -/
theorem scheduledSubsidy_antitone {start} (slow_pos : 0 < slow) (interval_pos : 0 < interval)
    (premined : 80 < start + slow) {a b} (after : start + slow ≤ a + 1) (order : a ≤ b)
    : scheduledSubsidy start slow interval b ≤ scheduledSubsidy start slow interval a := by
  induction b, order using le_induction with
  | base => exact le_refl _
  | succ b order ih =>
    refine le_trans ?_ ih
    rw [scheduledSubsidy_epoch premined (by omega)]
    rcases lt_or_ge b (start + slow) with last | inside
    · exact ((share_le _ (sub_le _ _) interval_pos).trans (epochFull_le _)).trans
        (full_le_scheduledSubsidy slow_pos (by omega))
    · rw [scheduledSubsidy_epoch premined inside]
      have height : b + 1 - (start + slow) = b - (start + slow) + 1 := by omega
      rw [height]
      exact epochSubsidy_succ_le interval_pos _

/-- What the epochs from block `n` on pay in exact arithmetic: the rest of the current
epoch and, as the full subsidy halves each time, as much again as one whole next epoch.
-/
def epochRemaining (interval n : Nat) : ℚ :=
  let full : ℚ := 2000000000 / 2 ^ (n / interval)
  let left : ℚ := interval - (n % interval : Nat)
  full * (2 * interval * left + left * (left + 1) + interval * (3 * interval + 1))
    / (4 * interval)

section

variable (interval_pos : 0 < interval) (n : Nat)
include interval_pos n

theorem epochSubsidy_cast_le
    : (epochSubsidy interval n : ℚ)
      ≤ 2000000000 / 2 ^ (n / interval) / 2
        + 2000000000 / 2 ^ (n / interval) * (interval - (n % interval : Nat))
          / (2 * interval) := by
  have below := mod_lt n interval_pos
  have full : ((2000000000 / 2 ^ (n / interval) : Nat) : ℚ)
      ≤ 2000000000 / 2 ^ (n / interval) := by
    exact_mod_cast cast_div_le (n := 2 ^ (n / interval))
  have left : ((interval - n % interval : Nat) : ℚ) = interval - (n % interval : Nat) :=
    cast_sub below.le
  unfold epochSubsidy
  rw [← left]
  push_cast
  generalize (2000000000 / 2 ^ (n / interval) : ℚ) = exact_ at full ⊢
  generalize 2000000000 / 2 ^ (n / interval) = whole at full ⊢
  generalize interval - n % interval = remaining
  have half : ((whole / 2 : Nat) : ℚ) ≤ exact_ / 2 := by
    calc ((whole / 2 : Nat) : ℚ)
      _ ≤ whole / 2 := cast_div_le
      _ ≤ exact_ / 2 := by gcongr
  have share : ((whole * remaining / (2 * interval) : Nat) : ℚ)
      ≤ exact_ * remaining / (2 * interval) := by
    calc ((whole * remaining / (2 * interval) : Nat) : ℚ)
      _ ≤ (whole * remaining : Nat) / (2 * interval : Nat) := cast_div_le
      _ = whole * remaining / (2 * interval) := by push_cast; rfl
      _ ≤ exact_ * remaining / (2 * interval) := by gcongr
  linarith

/-- Each block pays at most what the remaining sum decreases by. -/
theorem epochSubsidy_add_remaining_le
    : (epochSubsidy interval n : ℚ) + epochRemaining interval (n + 1)
      ≤ epochRemaining interval n := by
  have paid := epochSubsidy_cast_le interval_pos n
  unfold epochRemaining
  rcases epoch_succ interval_pos n with
    ⟨inside, quotient, remainder⟩ | ⟨last, quotient, remainder⟩
  · rw [quotient, remainder]
    push_cast
    refine (add_le_add_left paid _).trans (le_of_eq ?_)
    field_simp
    ring
  · have lastCast : ((n % interval : Nat) : ℚ) = interval - 1 := by
      have cast : ((n % interval + 1 : Nat) : ℚ) = interval := by exact_mod_cast last
      push_cast at cast ⊢
      linarith
    rw [quotient, remainder]
    refine (add_le_add_left paid _).trans (le_of_eq ?_)
    rw [lastCast]
    field_simp
    ring

theorem epochRemaining_nonneg
    : 0 ≤ epochRemaining interval n := by
  have below : ((n % interval : Nat) : ℚ) ≤ interval := by
    exact_mod_cast (mod_lt n interval_pos).le
  unfold epochRemaining
  positivity

end

/-- The blocks after the slow start pay at most the remaining sum at the first of them. -/
theorem sum_epochSubsidy_le (interval : Nat) (interval_pos : 0 < interval) (m : Nat)
    : ((∑ i ∈ range m, epochSubsidy interval (i + 1) : Nat) : ℚ)
      ≤ epochRemaining interval 1 := by
  have telescoped : ((∑ i ∈ range m, epochSubsidy interval (i + 1) : Nat) : ℚ)
      + epochRemaining interval (m + 1) ≤ epochRemaining interval 1 := by
    induction m with
    | zero => simp
    | succ m ih =>
      have step := epochSubsidy_add_remaining_le interval_pos (m + 1)
      rw [sum_range_succ]
      push_cast at ih ⊢
      linarith
  have rest := epochRemaining_nonneg interval_pos (m + 1)
  linarith

/-- The slow start pays at most the area under its line. -/
theorem sum_slowStart_le (slow : Nat) (slow_pos : 0 < slow) (m : Nat)
    : ((∑ i ∈ range m, 2000000000 * (i + 1) / slow : Nat) : ℚ)
      ≤ 1000000000 * (m * (m + 1)) / slow := by
  induction m with
  | zero => simp
  | succ m ih =>
    have paid : ((2000000000 * (m + 1) / slow : Nat) : ℚ)
        ≤ 2000000000 * (m + 1) / slow := by
      exact_mod_cast cast_div_le (m := 2000000000 * (m + 1)) (n := slow)
    have line : 1000000000 * ((m : ℚ) * (m + 1)) / slow + 2000000000 * (m + 1) / slow
        = 1000000000 * (((m + 1 : Nat) : ℚ) * ((m + 1 : Nat) + 1)) / slow := by
      push_cast
      field_simp
      ring
    rw [sum_range_succ, cast_add, ← line]
    exact add_le_add ih paid

theorem main_subsidy (h : Nat)
    : main.subsidy h = scheduledSubsidy 201 43200 2185600 h :=
  rfl

theorem main_subsidy_slowStart {i} (inside : i < 43200)
    : main.subsidy (201 + i) = 2000000000 * (i + 1) / 43200 := by
  have height : 201 + i - 201 + 1 = i + 1 := by omega
  rw [main_subsidy, scheduledSubsidy, if_neg (by omega), if_neg (by omega),
    if_pos (by omega), height]

theorem main_subsidy_epoch (i : Nat)
    : main.subsidy (43401 + i) = epochSubsidy 2185600 (i + 1) := by
  have height : 43401 + i - (201 + 43200) = i := by omega
  rw [main_subsidy, scheduledSubsidy_epoch (by omega) (by omega), height]

/-- The whole schedule of the main network pays at most `MAX_MONEY`: the premine, the area
under the slow start and the epochs add up to it exactly.
-/
theorem sum_main_subsidy_le (n : Nat)
    : ∑ h ∈ range n, main.subsidy h ≤ 12600000000000000 := by
  have slow : ∑ i ∈ range 43200, 2000000000 * (i + 1) / 43200 ≤ 43201000000000 := by
    have area := sum_slowStart_le 43200 (by decide) 43200
    have value : (1000000000 * ((43200 : Nat) * ((43200 : Nat) + 1)) / (43200 : Nat) : ℚ)
        = (43201000000000 : Nat) := by norm_num
    rw [value] at area
    exact cast_le.mp area
  have epochs : ∑ i ∈ range n, epochSubsidy 2185600 (i + 1) ≤ 6556799000000000 := by
    have paid := sum_epochSubsidy_le 2185600 (by decide) n
    have first : epochRemaining 2185600 1 = 6556799000000000 := by norm_num [epochRemaining]
    rw [first] at paid
    exact_mod_cast paid
  have slowSum : ∑ i ∈ range 43200, main.subsidy (201 + i)
      = ∑ i ∈ range 43200, 2000000000 * (i + 1) / 43200 :=
    sum_congr rfl (fun i mem => main_subsidy_slowStart (mem_range.mp mem))
  have epochSum : ∑ i ∈ range n, main.subsidy (43401 + i)
      = ∑ i ∈ range n, epochSubsidy 2185600 (i + 1) :=
    sum_congr rfl (fun i _ => main_subsidy_epoch i)
  have premine : ∑ h ∈ range 201, main.subsidy h = 6000000000000000 := by decide +kernel
  calc ∑ h ∈ range n, main.subsidy h
    _ ≤ ∑ h ∈ range (201 + 43200 + n), main.subsidy h :=
        sum_le_sum_of_subset (range_subset_range.mpr (by omega))
    _ = 6000000000000000 + ∑ i ∈ range 43200, 2000000000 * (i + 1) / 43200
          + ∑ i ∈ range n, epochSubsidy 2185600 (i + 1) := by
        rw [sum_range_add, sum_range_add, premine, slowSum, epochSum]
    _ ≤ 12600000000000000 := by omega

/-- On the main network no intermediate result overflows, every subsidy is non-negative,
their sum up to any height is at most `MAX_MONEY`, and from the end of the slow start on they
never increase.
-/
theorem main_supply_cap {N : Nat} (bound : (N : Int) ≤ intMax)
    : ∑ h ∈ Finset.range (N + 1), (getBlockSubsidy h Params.main).toInt ≤ maxMoney.toInt
      ∧ (∀ h ≤ N, 0 ≤ getBlockSubsidy h Params.main)
      ∧ (∀ h ≤ N, getBlockSubsidyChecked h Params.main
          = some (getBlockSubsidy h Params.main).toInt)
      ∧ ∀ a b : Nat, Params.main.nSubsidySlowStartHeight
            + Params.main.nSubsidySlowStartInterval ≤ a + 1 →
          a ≤ b → b ≤ N →
          getBlockSubsidy b Params.main ≤ getBlockSubsidy a Params.main := by
  have value {h : Nat} (below : h ≤ N)
      : (getBlockSubsidy h main).toInt = main.subsidy h :=
    getBlockSubsidy_toInt main (by omega)
  refine ⟨?_, ?_, ?_, ?_⟩
  · have cast : ∑ h ∈ range (N + 1), (getBlockSubsidy h main).toInt
        = ((∑ h ∈ range (N + 1), main.subsidy h : Nat) : Int) := by
      rw [cast_sum]
      exact sum_congr rfl
        (fun h mem => value (Nat.lt_succ_iff.mp (mem_range.mp mem)))
    rw [cast, maxMoney_toInt]
    exact_mod_cast sum_main_subsidy_le (N + 1)
  · intro h below
    rw [Int64.le_iff_toInt_le, value below]
    exact Int.natCast_nonneg _
  · intro h below
    rw [getBlockSubsidyChecked_eq main (by omega), value below]
  intro a b after order below
  have after : (201 : Int) + 43200 ≤ a + 1 := after
  have never : scheduledSubsidy 201 43200 2185600 b ≤ scheduledSubsidy 201 43200 2185600 a :=
    scheduledSubsidy_antitone (by decide) (by decide) (by decide) (by omega) order
  rw [Int64.le_iff_toInt_le, value below, value (order.trans below)]
  exact_mod_cast never

theorem main_supply_cap_slowStart
    : ((50000 : Nat) : Int) ≤ intMax
      ∧ (∑ h ∈ Finset.range (50000 + 1), (getBlockSubsidy h Params.main).toInt
          ≤ maxMoney.toInt
        ∧ (∀ h ≤ 50000, 0 ≤ getBlockSubsidy (h : Nat) Params.main)
        ∧ (∀ h ≤ 50000, getBlockSubsidyChecked (h : Nat) Params.main
            = some (getBlockSubsidy (h : Nat) Params.main).toInt)
        ∧ ∀ a b : Nat, Params.main.nSubsidySlowStartHeight
              + Params.main.nSubsidySlowStartInterval ≤ a + 1 →
            a ≤ b → b ≤ 50000 →
            getBlockSubsidy b Params.main ≤ getBlockSubsidy a Params.main) :=
  ⟨by decide, main_supply_cap (by decide)⟩

end Resistance.Consensus

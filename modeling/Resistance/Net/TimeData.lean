import Mathlib.Data.List.Induction
import Resistance.Lib.MachineInt
import Resistance.Lib.OrderStatistic

/-! The time that peers report, from `timedata.cpp`: the clock is set off by the median of what they
say, if that is small.
-/

namespace Resistance.Net

open List Lib Int64

/-- The `vValues` of a filter of 200 values. -/
abbrev CMedianFilter := List Int64

namespace CMedianFilter

variable (vValues : CMedianFilter)

def input (value : Int64) : CMedianFilter :=
  (if vValues.length = 200 then vValues.tail else vValues) ++ [value]

def sorted : List Int := (vValues.map toInt).insertionSort (· ≤ ·)

def median : Int64 :=
  let vSorted i := ofInt (vValues.sorted.getD i 0)
  let size := vValues.length
  if size % 2 = 1 then vSorted (size / 2) else (vSorted (size / 2 - 1) + vSorted (size / 2)) / 2

end CMedianFilter

def abs64 (n : Int64) : Int64 := if n ≥ 0 then n else -n

/-- The static variables of `AddTimeData`. -/
structure TimeData (Addr : Type) where
  setKnown : List Addr := []
  vTimeOffsets : CMedianFilter := [0]
  nTimeOffset : Int64 := 0
  /-- Whether the user was warned. -/
  fDone : Bool := false

variable {Addr : Type} [DecidableEq Addr]

def addTimeData (s : TimeData Addr) (sample : Addr × Int64) : TimeData Addr :=
  if s.setKnown.length = 200 ∨ sample.1 ∈ s.setKnown then s
  else
    let vTimeOffsets := s.vTimeOffsets.input sample.2
    let s := { s with setKnown := sample.1 :: s.setKnown, vTimeOffsets }
    if vTimeOffsets.length ≥ 5 ∧ vTimeOffsets.length % 2 = 1 then
      let nMedian := vTimeOffsets.median
      -- Only let other nodes change our time by so much
      if abs64 nMedian ≤ 60 then { s with nTimeOffset := nMedian }
      else
        let fMatch := vTimeOffsets.any fun nOffset => nOffset ≠ 0 && abs64 nOffset < 5 * 60
        { s with nTimeOffset := 0, fDone := s.fDone || !fMatch }
    else s

/-- What the filter holds when a call updates the offset. -/
def TimeData.held (s : TimeData Addr) (sample : Addr × Int64) : Option CMedianFilter :=
  if s.setKnown.length = 200 ∨ sample.1 ∈ s.setKnown then none
  else
    let vTimeOffsets := s.vTimeOffsets.input sample.2
    if vTimeOffsets.length ≥ 5 ∧ vTimeOffsets.length % 2 = 1 then some vTimeOffsets else none

/-- At most a minute. -/
abbrev Near (nTimeOffset : Int64) : Prop := -60 ≤ nTimeOffset.toInt ∧ nTimeOffset.toInt ≤ 60

variable {s : TimeData Addr} {sample : Addr × Int64} {vValues : CMedianFilter}

theorem nTimeOffset_addTimeData
    : (addTimeData s sample).nTimeOffset = (s.held sample).elim s.nTimeOffset fun vValues =>
      if abs64 vValues.median ≤ 60 then vValues.median else 0 := by
  unfold addTimeData TimeData.held
  dsimp only
  split_ifs <;> simp only [Option.elim] <;> simp only [*, if_true, if_false]

/-- The absolute value of the least number is negative. -/
theorem abs64_le_iff {n : Int64} : abs64 n ≤ 60 ↔ Near n ∨ n = .minValue := by
  have sixty : (60 : Int64).toInt = 60 := rfl
  have zero : (0 : Int64).toInt = 0 := rfl
  obtain ⟨low, -⟩ := MachineInt.toInt_range n
  simp only [abs64, Near, ge_iff_le, le_iff_toInt_le, ← toInt_inj, toInt_minValue]
  split
  · omega
  rcases Int.lt_or_eq_of_le low with above | least
  · rw [MachineInt.toInt_neg ⟨by omega, by omega⟩]
    omega
  · rw [toInt_neg, ← least]
    decide

theorem toInt_median (odd : vValues.length % 2 = 1)
    : vValues.median.toInt = OrderStatistic.median (vValues.map toInt) 0 := by
  have nonempty : vValues.map toInt ≠ [] := by
    rintro empty
    simp_all
  obtain ⟨v, -, same⟩ := mem_map.mp (OrderStatistic.median_mem 0 nonempty)
  rw [CMedianFilter.median, if_pos odd, ← length_map toInt]
  change (ofInt (OrderStatistic.median ..)).toInt = _
  rw [← same, ofInt_toInt]

section

variable (updates : s.held sample = some vValues)
include updates

theorem near_iff : Near (addTimeData s sample).nTimeOffset ↔ vValues.median ≠ .minValue := by
  rw [nTimeOffset_addTimeData, updates, Option.elim_some]
  split
  next small =>
    constructor
    · rintro near least
      rw [least] at near
      exact absurd near (by decide)
    · exact (abs64_le_iff.mp small).resolve_right
  next large =>
    refine iff_of_true (by decide) fun least => large ?_
    exact abs64_le_iff.mpr (.inr least)

theorem between_of_most {a b : Int} (low : -60 ≤ a) (high : b ≤ 60)
    (most : vValues.length < 2 * vValues.countP fun v => a ≤ v.toInt ∧ v.toInt ≤ b)
    : a ≤ (addTimeData s sample).nTimeOffset.toInt
      ∧ (addTimeData s sample).nTimeOffset.toInt ≤ b := by
  have odd : vValues.length % 2 = 1 := by
    unfold TimeData.held at updates
    dsimp only at updates
    split_ifs at updates with _ odd
    cases updates
    exact odd.2
  have between : a ≤ vValues.median.toInt ∧ vValues.median.toInt ≤ b := by
    rw [toInt_median odd]
    apply OrderStatistic.median_between
    rwa [length_map, countP_map]
  rw [nTimeOffset_addTimeData, updates, Option.elim_some, if_pos]
  · exact between
  · exact abs64_le_iff.mpr (.inl ⟨by omega, by omega⟩)

end

/-- The offset stays near zero if it is never updated with the least number as the median, and an
update brings it to where most of the values are.
-/
theorem timeOffset_near (samples : List (Addr × Int64))
    : ((∀ before sample after vValues, samples = before ++ sample :: after
          → (before.foldl addTimeData {}).held sample = some vValues → vValues.median ≠ .minValue)
        → Near (samples.foldl addTimeData {}).nTimeOffset)
      ∧ ∀ (s : TimeData Addr) sample vValues, s.held sample = some vValues
        → (Near (addTimeData s sample).nTimeOffset ↔ vValues.median ≠ .minValue)
          ∧ ∀ a b, -60 ≤ a → b ≤ 60
            → vValues.length < 2 * (vValues.countP fun v => a ≤ v.toInt ∧ v.toInt ≤ b)
            → a ≤ (addTimeData s sample).nTimeOffset.toInt
              ∧ (addTimeData s sample).nTimeOffset.toInt ≤ b := by
  refine ⟨?_, fun s sample vValues updates =>
    ⟨near_iff updates, fun a b => between_of_most updates⟩⟩
  induction samples using List.reverseRecOn with
  | nil =>
    intro _
    change Near 0
    decide
  | append_singleton samples sample ih =>
    intro never
    rw [foldl_concat]
    cases updates : (samples.foldl addTimeData {}).held sample with
    | some vValues => exact (near_iff updates).mpr (never samples sample [] vValues rfl updates)
    | none =>
      rw [nTimeOffset_addTimeData, updates]
      refine ih fun before earlier after vValues same =>
        never before earlier (after ++ [sample]) _ ?_
      rw [same, append_assoc, cons_append]

/-- Four peers report numbers below a minute. -/
theorem timeOffset_near_four
    : let after : TimeData Nat := [(0, 10), (1, 20), (2, 30), (3, 40)].foldl addTimeData {}
      Near after.nTimeOffset ∧ 10 ≤ after.nTimeOffset.toInt ∧ after.nTimeOffset.toInt ≤ 40 := by
  obtain ⟨run, update⟩ := timeOffset_near [(0, 10), (1, 20), (2, 30), (3, 40)]
  obtain ⟨-, between⟩ := update ([(0, 10), (1, 20), (2, 30)].foldl addTimeData {}) (3, 40)
    [0, 10, 20, 30, 40] (by decide)
  refine ⟨run ?_, between 10 40 (by decide) (by decide) (by decide)⟩
  -- only the last of the calls updates the offset
  rintro (_ | ⟨_, _ | ⟨_, _ | ⟨_, _ | ⟨_, _ | before⟩⟩⟩⟩) sample after vValues samples held
    <;> cases samples <;> cases held
  decide

/-- Four peers report the least number. -/
theorem timeOffset_least
    : ([(0, .minValue), (1, .minValue), (2, .minValue), (3, .minValue)].foldl addTimeData
        ({} : TimeData Nat)).nTimeOffset.toInt = -2 ^ 63 := by
  decide +kernel

end Resistance.Net

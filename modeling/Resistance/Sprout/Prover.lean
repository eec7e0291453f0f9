import Resistance.Sprout.JoinSplit
import Resistance.Zcash.Witness

/-! When the prover returns a description, and what it says of the notes. -/

namespace Resistance.Sprout

open Primitives Consensus Zcash Validation Lib.Checks

variable {crypto : SproutCrypto} {random : JoinSplitRandom} {joinSplitPubKey : Uint256}
  {computeProof : Bool} {rt : Uint256} {inputs : JSInput × JSInput}
  {outputs : JSOutput × JSOutput} {vpubOld vpubNew : UInt64}

/-- The input may be spent in a joinsplit with the anchor `rt`. -/
structure Spendable (crypto : SproutCrypto) (rt : Uint256) (input : JSInput) : Prop where
  anchored : input.note.value ≠ 0 → input.root crypto = rt
  witnessed : input.note.value ≠ 0 → input.witness.element = .ok (crypto.cm input.note)
  owned : input.note.aPk = (crypto.address input.key).aPk

/-- The value that goes into a joinsplit. -/
def valueIn (vpubOld : UInt64) (inputs : JSInput × JSInput) : Nat :=
  vpubOld.toNat + inputs.1.note.value.toNat + inputs.2.note.value.toNat

/-- The value that comes out of a joinsplit. -/
def valueOut (vpubNew : UInt64) (outputs : JSOutput × JSOutput) : Nat :=
  vpubNew.toNat + outputs.1.value.toNat + outputs.2.value.toNat

theorem maxMoney_toUInt64 : maxMoney.toUInt64.toNat = 12600000000000000 := by decide

/-- A checked addition is exact. -/
theorem not_gt_maxMoney {total value} (small : total.toNat ≤ maxMoney.toUInt64.toNat)
    : (¬ value > maxMoney.toUInt64 ∧ ¬ total + value > maxMoney.toUInt64)
      ↔ total.toNat + value.toNat ≤ maxMoney.toUInt64.toNat := by
  simp only [UInt64.lt_iff_toNat_lt, UInt64.toNat_add]
  rw [maxMoney_toUInt64] at *
  omega

theorem toNat_add_of_le {total value : UInt64}
    (small : total.toNat + value.toNat ≤ maxMoney.toUInt64.toNat)
    : (total + value).toNat = total.toNat + value.toNat := by
  rw [maxMoney_toUInt64] at small
  rw [UInt64.toNat_add]
  omega

variable {input : JSInput} {u : Unit} {lhsValue rhsValue : UInt64}

theorem checkElement_ok
    : checkElement crypto input = .ok u
      ↔ input.witness.element = .ok (crypto.cm input.note) := by
  simp only [checkElement, bind_ok, mapError_ok, throwIf_ok, not_not]
  constructor
  · rintro ⟨element, found, same⟩
    rw [found, same]
  · intro found
    exact ⟨_, found, rfl⟩

theorem checkValued_ok
    : checkValued crypto rt input = .ok u
      ↔ (input.note.value ≠ 0 → input.root crypto = rt)
        ∧ (input.note.value ≠ 0 → input.witness.element = .ok (crypto.cm input.note)) := by
  unfold checkValued
  split
  next valued =>
    simp [checkElement_ok, valued]
  next empty =>
    simp [not_not.mp empty]

/-- The step adds a value to a total in range if it is allowed to and the sum is in range. -/
def Adds (step : UInt64 → Except JoinSplitFailure UInt64) (allowed : Prop) (value : UInt64)
    : Prop :=
  ∀ total next : UInt64, total.toNat ≤ maxMoney.toUInt64.toNat
    → (step total = .ok next
      ↔ allowed ∧ total.toNat + value.toNat ≤ maxMoney.toUInt64.toNat ∧ next = total + value)

theorem checkInput_adds (input : JSInput)
    : Adds (checkInput crypto rt · input) (Spendable crypto rt input) input.note.value := by
  intro total next small
  simp only [checkInput, bind_ok, checkValued_ok, throwIf_ok, pure_ok,
    exists_const, not_not, ← not_gt_maxMoney small]
  constructor
  · rintro ⟨⟨anchored, witnessed⟩, owned, note, sum, rfl⟩
    exact ⟨⟨anchored, witnessed, owned⟩, ⟨note, sum⟩, rfl⟩
  · rintro ⟨⟨anchored, witnessed, owned⟩, ⟨note, sum⟩, rfl⟩
    exact ⟨⟨anchored, witnessed⟩, owned, note, sum, rfl⟩

theorem checkOutput_adds (output : JSOutput) : Adds (checkOutput · output) True output.value := by
  intro total next small
  simp only [checkOutput, bind_ok, throwIf_ok, pure_ok, exists_const,
    ← not_gt_maxMoney small, and_assoc, eq_comm (a := total + output.value), true_and]

/-- The total that two steps reach is exact. -/
theorem Adds.twice {first second}
    {allowed allowedNext value more total reached} (addsFirst : Adds first allowed value)
    (addsSecond : Adds second allowedNext more) (small : total.toNat ≤ maxMoney.toUInt64.toNat)
    : (∃ middle, first total = .ok middle ∧ second middle = .ok reached)
      ↔ allowed ∧ allowedNext
        ∧ total.toNat + value.toNat + more.toNat ≤ maxMoney.toUInt64.toNat
        ∧ reached.toNat = total.toNat + value.toNat + more.toNat := by
  constructor
  · rintro ⟨middle, run, next⟩
    obtain ⟨isAllowed, sum, rfl⟩ := (addsFirst _ _ small).mp run
    have exact := toNat_add_of_le sum
    rw [← exact] at sum
    obtain ⟨nextAllowed, sum, rfl⟩ := (addsSecond _ _ sum).mp next
    rw [toNat_add_of_le sum, ← exact]
    exact ⟨isAllowed, nextAllowed, sum, rfl⟩
  · rintro ⟨isAllowed, nextAllowed, sum, same⟩
    have within : total.toNat + value.toNat ≤ maxMoney.toUInt64.toNat := by omega
    have exact := toNat_add_of_le within
    rw [← exact] at same sum within
    refine ⟨_, (addsFirst _ _ small).mpr ⟨isAllowed, by rwa [← exact], rfl⟩,
      (addsSecond _ _ within).mpr ⟨nextAllowed, sum, ?_⟩⟩
    rw [← UInt64.toNat_inj, same, toNat_add_of_le sum]

/-- The prover's sanity checks pass. -/
structure Provable (crypto : SproutCrypto) (rt : Uint256) (inputs : JSInput × JSInput)
    (outputs : JSOutput × JSOutput) (vpubOld vpubNew : UInt64) : Prop where
  first : Spendable crypto rt inputs.1
  second : Spendable crypto rt inputs.2
  range : valueIn vpubOld inputs ≤ maxMoney.toUInt64.toNat
  balanced : valueIn vpubOld inputs = valueOut vpubNew outputs

/-- The prover returns a description exactly for a balanced joinsplit in range with inputs that
may be spent, if it also finds the authentication paths.
-/
theorem prove_ok {jsdesc}
    : prove crypto random joinSplitPubKey computeProof rt inputs outputs vpubOld vpubNew
        = .ok jsdesc
      ↔ Provable crypto rt inputs outputs vpubOld vpubNew
        ∧ ∃ proof, jsProof crypto random joinSplitPubKey computeProof rt inputs outputs vpubOld
            vpubNew = .ok proof
          ∧ jsdesc = describe crypto random joinSplitPubKey rt inputs outputs vpubOld vpubNew
            proof := by
  simp only [prove, bind_ok, throwIf_ok, pure_ok, exists_const,
    UInt64.lt_iff_toNat_lt, not_lt, not_not]
  constructor
  · rintro ⟨old, new, middle, first, lhs, second, right, third, rhs, fourth, same, proof, proved,
      isDesc⟩
    obtain ⟨spendFirst, spendSecond, range, left⟩ :=
      ((checkInput_adds _).twice (checkInput_adds _) old).mp ⟨_, first, second⟩
    obtain ⟨-, -, -, reached⟩ :=
      ((checkOutput_adds _).twice (checkOutput_adds _) new).mp ⟨_, third, fourth⟩
    rw [same, reached] at left
    exact ⟨⟨spendFirst, spendSecond, range, left.symm⟩, proof, proved, isDesc.symm⟩
  · rintro ⟨⟨spendFirst, spendSecond, range, balanced⟩, proof, proved, rfl⟩
    have old : vpubOld.toNat ≤ maxMoney.toUInt64.toNat := by
      unfold valueIn at range
      omega
    have outRange := balanced ▸ range
    have new : vpubNew.toNat ≤ maxMoney.toUInt64.toNat := by
      unfold valueOut at outRange
      omega
    have total : (UInt64.ofNat (valueIn vpubOld inputs)).toNat = valueIn vpubOld inputs := by
      exact UInt64.toNat_ofNat_of_lt' (range.trans_lt (by decide))
    obtain ⟨middle, first, second⟩ := ((checkInput_adds _).twice (checkInput_adds _) old).mpr
      ⟨spendFirst, spendSecond, range, total⟩
    obtain ⟨right, third, fourth⟩ := ((checkOutput_adds _).twice (checkOutput_adds _) new).mpr
      ⟨trivial, trivial, outRange, total.trans balanced⟩
    exact ⟨old, new, middle, first, _, second, right, third, _, fourth, rfl, proof, proved, rfl⟩

theorem mappedShuffle_cases {α} (r : Fin 2) (elements : α × α)
    : mappedShuffle r elements = elements ∨ mappedShuffle r elements = (elements.2, elements.1)
      := by
  unfold mappedShuffle
  split
  · exact .inr rfl
  · exact .inl rfl

/-- The order of the inputs and outputs does not matter to the checks. -/
theorem provable_shuffled {r r'}
    : Provable crypto rt (mappedShuffle r inputs) (mappedShuffle r' outputs) vpubOld vpubNew
      ↔ Provable crypto rt inputs outputs vpubOld vpubNew := by
  have sumIn : valueIn vpubOld (mappedShuffle r inputs) = valueIn vpubOld inputs := by
    rcases mappedShuffle_cases r inputs with same | swapped
    · rw [same]
    · rw [swapped]
      exact Nat.add_right_comm ..
  have sumOut : valueOut vpubNew (mappedShuffle r' outputs) = valueOut vpubNew outputs := by
    rcases mappedShuffle_cases r' outputs with same | swapped
    · rw [same]
    · rw [swapped]
      exact Nat.add_right_comm ..
  have spendable : (Spendable crypto rt (mappedShuffle r inputs).1
      ∧ Spendable crypto rt (mappedShuffle r inputs).2)
      ↔ Spendable crypto rt inputs.1 ∧ Spendable crypto rt inputs.2 := by
    rcases mappedShuffle_cases r inputs with same | swapped
    · rw [same]
    · rw [swapped]
      exact And.comm
  constructor
  · rintro ⟨first, second, range, balanced⟩
    obtain ⟨first, second⟩ := spendable.mp ⟨first, second⟩
    rw [sumIn] at range balanced
    exact ⟨first, second, range, balanced.trans sumOut⟩
  · rintro ⟨first, second, range, balanced⟩
    obtain ⟨first, second⟩ := spendable.mpr ⟨first, second⟩
    exact ⟨first, second, sumIn ▸ range, sumIn.trans (balanced.trans sumOut.symm)⟩

end Resistance.Sprout

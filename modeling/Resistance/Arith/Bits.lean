import Mathlib.Data.Nat.Bitwise
import Resistance.Arith.Carries

/-! What the limb operators on bits compute: shifts, the number of bits, and comparison. -/

namespace Resistance.Arith.Limbs

open List Lib.Digits Nat

variable {pn a b : Limbs}

theorem testBit_value (pn : Limbs) (n : Nat)
    : pn.value.testBit n = (pn.limb (n / 32)).toNat.testBit (n % 32) := by
  have digit : (pn.map UInt32.toNat).getD (n / 32) 0 = (pn.limb (n / 32)).toNat :=
    getD_map pn 0 UInt32.toNat
  rw [value, testBit_ofDigits (by decide) (bounded_digits pn), digit]

theorem testBit_value_eq_false {n} (outside : 32 * pn.length ≤ n)
    : pn.value.testBit n = false :=
  testBit_lt_two_pow ((value_lt pn).trans_le (Nat.pow_le_pow_right two_pos outside))

theorem testBit_limb_eq_false (p : UInt32) {n} (outside : 32 ≤ n)
    : p.toNat.testBit n = false :=
  testBit_lt_two_pow (p.toNat_lt.trans_le (Nat.pow_le_pow_right two_pos outside))

@[simp] theorem length_orAt (pn : Limbs) (i : Nat) (x : UInt32)
    : (pn.orAt i x).length = pn.length :=
  length_modify ..

theorem limb_orAt {i} (inside : i < pn.length) (x : UInt32) (m : Nat)
    : (pn.orAt i x).limb m = if m = i then pn.limb m ||| x else pn.limb m := by
  unfold limb orAt
  rw [getD_eq_getElem?_getD, getElem?_modify]
  split
  next same => simp [← same, inside]
  next other => simp [Ne.symm other]

theorem testBit_orAt {i} (inside : i < pn.length) (x : UInt32) (n : Nat)
    : (pn.orAt i x).value.testBit n
      = (pn.value.testBit n || (decide (n / 32 = i) && x.toNat.testBit (n % 32))) := by
  rw [testBit_value, testBit_value, limb_orAt inside]
  split
  next same => simp [same]
  next other => simp [other]

theorem testBit_limb_shiftRight (p : UInt32) {s} (small : s < 32) (r : Nat)
    : (p >>> UInt32.ofNat s).toNat.testBit r = p.toNat.testBit (s + r) := by
  rw [UInt32.toNat_shiftRight, UInt32.toNat_ofNat_of_lt' (by simp [UInt32.size]; omega),
    mod_eq_of_lt small, testBit_shiftRight]

theorem testBit_limb_shiftLeft (p : UInt32) {s r} (small : s < 32) (bit : r < 32)
    : (p <<< UInt32.ofNat s).toNat.testBit r = (decide (s ≤ r) && p.toNat.testBit (r - s)) := by
  rw [UInt32.toNat_shiftLeft, UInt32.toNat_ofNat_of_lt' (by simp [UInt32.size]; omega),
    mod_eq_of_lt small, testBit_mod_two_pow]
  simp [bit]

theorem orAt_if {c} [Decidable c] {i x} (inside : c → i < pn.length)
    : (if c then pn.orAt i x else pn).length = pn.length
      ∧ ∀ n, (value (if c then pn.orAt i x else pn)).testBit n
        = (pn.value.testBit n || (decide (c ∧ n / 32 = i) && x.toNat.testBit (n % 32))) := by
  split
  next holds =>
    simp [testBit_orAt (inside holds), holds]
  next fails => simp [fails]

theorem toNat_one_shiftLeft {i} (inside : i < 32)
    : (1 <<< UInt32.ofNat i : UInt32).toNat = 2 ^ i := by
  rw [UInt32.toNat_shiftLeft, UInt32.toNat_ofNat_of_lt' (by simp [UInt32.size]; omega),
    mod_eq_of_lt inside, UInt32.toNat_one, one_shiftLeft,
    mod_eq_of_lt (Nat.pow_lt_pow_right (by decide) inside)]

/-- Setting a bit below which and at which nothing is set adds its power of two. -/
theorem value_setBit {shift} (inside : shift < 32 * pn.length) (clear : 2 ^ (shift + 1) ∣ pn.value)
    : (pn.orAt (shift / 32) (1 <<< UInt32.ofNat (shift % 32))).value = pn.value + 2 ^ shift := by
  have bit : shift % 32 < 32 := mod_lt _ (by decide)
  have union : (pn.orAt (shift / 32) (1 <<< UInt32.ofNat (shift % 32))).value
      = pn.value ||| 2 ^ shift := by
    refine eq_of_testBit_eq fun n => ?_
    rw [testBit_orAt (by omega), toNat_one_shiftLeft bit, testBit_or, testBit_two_pow,
      testBit_two_pow, ← Bool.decide_and]
    congr 2
    exact propext (by omega)
  obtain ⟨high, multiple⟩ := clear
  rw [union, multiple, two_pow_add_eq_or_of_lt
    (Nat.pow_lt_pow_right (by decide) (lt_succ_self shift))]

/-- Rounds that each fill in the bits coming from their own limb fill in the bits of all limbs
passed so far.
-/
theorem testBit_rounds {round} {source : Nat → Nat} {bit : Nat → Bool}
    (fills : ∀ pn i, pn.length = a.length → i < a.length →
      (round pn i).length = a.length
      ∧ ∀ n, (round pn i).value.testBit n
        = (pn.value.testBit n || (decide (source n = i) && bit n)))
    {t} (inside : t ≤ a.length)
    : ((List.range t).foldl round a.zero).length = a.length
      ∧ ∀ n, (value ((List.range t).foldl round a.zero)).testBit n
        = (decide (source n < t) && bit n) := by
  induction t with
  | zero => simp
  | succ t ih =>
    obtain ⟨width, bits⟩ := ih (le_of_succ_le inside)
    rw [range_succ, foldl_append, foldl_cons, foldl_nil]
    obtain ⟨kept, filled⟩ := fills _ t width inside
    refine ⟨kept, ?_⟩
    intro n
    simp only [filled, bits, ← Bool.and_or_distrib_right, ← Bool.decide_or,
      ← Nat.lt_succ_iff_lt_or_eq]

theorem decide_and_congr {p q} [Decidable p] [Decidable q] {x y} (same : p ↔ q) (agree : q → x = y)
    : (decide p && x) = (decide q && y) := by
  by_cases holds : q
  · rw [decide_eq_true (same.mpr holds), decide_eq_true holds, agree holds]
  · rw [decide_eq_false (mt same.mp holds), decide_eq_false holds, Bool.false_and, Bool.false_and]

/-- The bits that a round of `operator<<=` fills in. -/
theorem shiftLeftRound_fills {k s} (small : s < 32) (pn : Limbs) (i : Nat)
    (width : pn.length = a.length)
    : (a.shiftLeftRound k s pn i).length = a.length
      ∧ ∀ n, (a.shiftLeftRound k s pn i).value.testBit n
        = (pn.value.testBit n || (decide ((n - (32 * k + s)) / 32 = i)
          && (decide (n < 32 * a.length ∧ 32 * k + s ≤ n)
            && a.value.testBit (n - (32 * k + s))))) := by
  unfold shiftLeftRound
  obtain ⟨width₁, bits₁⟩ := @orAt_if pn (i + k + 1 < a.length ∧ s ≠ 0) _ (i + k + 1)
    (a.limb i >>> UInt32.ofNat (32 - s)) (fun h => by omega)
  obtain ⟨width₂, bits₂⟩ := @orAt_if _ (i + k < a.length) _ (i + k)
    (a.limb i <<< UInt32.ofNat s) (fun h => by rw [width₁]; omega)
  refine ⟨width₂.trans (width₁.trans width), ?_⟩
  intro n
  have bit : n % 32 < 32 := mod_lt _ (by decide)
  rw [bits₂, bits₁, Bool.or_assoc, ← Bool.and_assoc (decide _) (decide _) (testBit _ _),
    ← Bool.decide_and, testBit_limb_shiftLeft _ small bit, testBit_value a]
  congr 1
  rcases lt_or_ge (n % 32) s with low | high
  · -- The bit comes from the top of its limb, across the boundary.
    rw [testBit_limb_shiftRight _ (by omega), decide_eq_false (not_le.mpr low),
      Bool.false_and, Bool.and_false, Bool.or_false]
    refine decide_and_congr (by omega) ?_
    rintro ⟨rfl, -, reach⟩
    congr 1
    omega
  · have above : (decide ((i + k + 1 < a.length ∧ s ≠ 0) ∧ n / 32 = i + k + 1)
        && (a.limb i >>> UInt32.ofNat (32 - s)).toNat.testBit (n % 32)) = false := by
      by_cases shifted : s = 0
      · simp [shifted]
      · rw [testBit_limb_shiftRight _ (by omega), testBit_limb_eq_false _ (by omega),
          Bool.and_false]
    rw [above, decide_eq_true high, Bool.true_and]
    refine decide_and_congr (by omega) ?_
    rintro ⟨rfl, -, reach⟩
    congr 1
    omega

/-- `operator<<=` multiplies by a power of two, modulo the size of the integer. -/
theorem shiftLeft_spec (a : Limbs) (shift : Nat)
    : (a.shiftLeft shift).length = a.length
      ∧ (a.shiftLeft shift).value = (a.value <<< shift) % 2 ^ (32 * a.length) := by
  have split : 32 * (shift / 32) + shift % 32 = shift := div_add_mod shift 32
  obtain ⟨width, bits⟩ := testBit_rounds
    (fun pn i width _ => shiftLeftRound_fills (mod_lt shift (by decide)) pn i width)
    (le_refl a.length)
  rw [split] at bits
  refine ⟨width, eq_of_testBit_eq fun n => ?_⟩
  rw [shiftLeft, bits, testBit_mod_two_pow, testBit_shiftLeft]
  by_cases source : (n - shift) / 32 < a.length
  · simp [source, Bool.and_assoc]
  · rw [testBit_value_eq_false (show 32 * a.length ≤ n - shift by omega)]
    simp

/-- The bits that a round of `operator>>=` fills in. -/
theorem shiftRightRound_fills {k s} (small : s < 32) (pn : Limbs) (i : Nat)
    (width : pn.length = a.length) (inside : i < a.length)
    : (a.shiftRightRound k s pn i).length = a.length
      ∧ ∀ n, (a.shiftRightRound k s pn i).value.testBit n
        = (pn.value.testBit n || (decide ((n + (32 * k + s)) / 32 = i)
          && a.value.testBit (n + (32 * k + s)))) := by
  unfold shiftRightRound
  obtain ⟨width₁, bits₁⟩ := @orAt_if pn (k + 1 ≤ i ∧ s ≠ 0) _ (i - k - 1)
    (a.limb i <<< UInt32.ofNat (32 - s)) (fun h => by omega)
  obtain ⟨width₂, bits₂⟩ := @orAt_if _ (k ≤ i) _ (i - k)
    (a.limb i >>> UInt32.ofNat s) (fun h => by rw [width₁]; omega)
  refine ⟨width₂.trans (width₁.trans width), ?_⟩
  intro n
  have bit : n % 32 < 32 := mod_lt _ (by decide)
  rw [bits₂, bits₁, Bool.or_assoc, testBit_limb_shiftRight _ small, testBit_value a]
  congr 1
  rcases lt_or_ge (s + n % 32) 32 with low | high
  · have below : (decide ((k + 1 ≤ i ∧ s ≠ 0) ∧ n / 32 = i - k - 1)
        && (a.limb i <<< UInt32.ofNat (32 - s)).toNat.testBit (n % 32)) = false := by
      by_cases shifted : s = 0
      · simp [shifted]
      · rw [testBit_limb_shiftLeft _ (by omega) bit, decide_eq_false (by omega : ¬32 - s ≤ n % 32),
          Bool.false_and, Bool.and_false]
    rw [below]
    refine decide_and_congr (by omega) ?_
    rintro rfl
    congr 1
    omega
  · -- The bit comes from the bottom of the next limb.
    rw [testBit_limb_eq_false _ high, Bool.and_false, Bool.or_false,
      testBit_limb_shiftLeft _ (by omega) bit, decide_eq_true (by omega : 32 - s ≤ n % 32),
      Bool.true_and]
    refine decide_and_congr (by omega) ?_
    rintro rfl
    congr 1
    omega

/-- `operator>>=` divides by a power of two. -/
theorem shiftRight_spec (a : Limbs) (shift : Nat)
    : (a.shiftRight shift).length = a.length
      ∧ (a.shiftRight shift).value = a.value >>> shift := by
  have split : 32 * (shift / 32) + shift % 32 = shift := div_add_mod shift 32
  obtain ⟨width, bits⟩ := testBit_rounds
    (fun pn i width inside =>
      shiftRightRound_fills (mod_lt shift (by decide)) pn i width inside)
    (le_refl a.length)
  rw [split] at bits
  refine ⟨width, eq_of_testBit_eq fun n => ?_⟩
  rw [shiftRight, bits, testBit_shiftRight, add_comm shift]
  by_cases source : (n + shift) / 32 < a.length
  · simp [source]
  · rw [testBit_value_eq_false (show 32 * a.length ≤ n + shift by omega), Bool.and_false]

theorem and_one_shiftLeft_ne_zero (p : UInt32) {i} (inside : i < 32)
    : p &&& (1 <<< UInt32.ofNat i) ≠ 0 ↔ p.toNat.testBit i = true := by
  rw [Ne, ← UInt32.toNat_inj, UInt32.toNat_and, toNat_one_shiftLeft inside, and_two_pow]
  cases p.toNat.testBit i <;> simp

/-- The inner loop of `bits`, where no bit above its counter is set. -/
theorem limbBits_eq {p} (nonzero : p ≠ 0) {t} (inside : t < 32) (below : p.toNat < 2 ^ (t + 1))
    : limbBits p t = size p.toNat := by
  induction t with
  | zero =>
    have one : p.toNat = 1 := by
      have := mt UInt32.toNat_inj.mp nonzero
      rw [UInt32.toNat_zero] at this
      omega
    rw [limbBits, one, size_one]
  | succ t ih =>
    rw [limbBits]
    split
    next set =>
      have reached : 2 ^ (t + 1) ≤ p.toNat :=
        ge_two_pow_of_testBit ((and_one_shiftLeft_ne_zero p inside).mp set)
      have low := lt_size.mpr reached
      have high := size_le.mpr below
      omega
    next unset =>
      refine ih (lt_of_succ_lt inside) (Nat.lt_of_not_le fun reached =>
        unset ((and_one_shiftLeft_ne_zero p inside).mpr ?_))
      exact testBit_of_two_pow_le_and_two_pow_add_one_gt reached below

theorem bitsFrom_eq (pn : Limbs) (t : Nat) : pn.bitsFrom t = size (value (pn.take t)) := by
  induction t with
  | zero => simp [bitsFrom]
  | succ t ih =>
    rw [bitsFrom, value_take_succ]
    split
    next nonzero =>
      have digit : (pn.limb t).toNat ≠ 0 := fun zero => nonzero (UInt32.toNat_inj.mp zero)
      rw [size_add_mul (value_take_lt pn t) digit,
        limbBits_eq nonzero (by decide) (pn.limb t).toNat_lt]
    next zero =>
      rw [not_not.mp zero, ih, UInt32.toNat_zero, mul_zero, add_zero]

/-- `bits` is the position of the highest bit set plus one. -/
theorem bits_eq (pn : Limbs) : pn.bits = size pn.value := by
  rw [bits, bitsFrom_eq, take_length]

/-- The sign that `CompareTo` returns. -/
theorem compareFrom_eq (a b : Limbs) (t : Nat)
    : a.compareFrom b t = if value (a.take t) < value (b.take t) then -1
      else if value (b.take t) < value (a.take t) then 1 else 0 := by
  induction t with
  | zero => simp [compareFrom]
  | succ t ih =>
    rw [compareFrom, value_take_succ, value_take_succ]
    rcases lt_trichotomy (a.limb t).toNat (b.limb t).toNat with less | equal | greater
    · rw [if_pos (UInt32.lt_iff_toNat_lt.mpr less), if_pos (add_mul_lt _ (value_take_lt a t) less)]
    · rw [UInt32.toNat_inj.mp equal, if_neg (UInt32.lt_irrefl _), if_neg (UInt32.lt_irrefl _), ih]
      simp only [add_lt_add_iff_right]
    · have more := add_mul_lt (value (a.take t)) (value_take_lt b t) greater
      have above : b.limb t < a.limb t := UInt32.lt_iff_toNat_lt.mpr greater
      rw [if_neg (UInt32.lt_asymm above), if_pos above, if_neg more.not_gt, if_pos more]

theorem compareTo_eq (same : a.length = b.length)
    : a.compareTo b = if a.value < b.value then -1 else if b.value < a.value then 1 else 0 := by
  rw [compareTo, compareFrom_eq, take_length, same, take_length]

theorem compareTo_nonneg (same : a.length = b.length)
    : 0 ≤ a.compareTo b ↔ b.value ≤ a.value := by
  rw [compareTo_eq same]
  split
  next less => simp [less]
  next ge =>
    refine iff_of_true ?_ (not_lt.mp ge)
    split <;> decide

theorem compareTo_pos (same : a.length = b.length)
    : 0 < a.compareTo b ↔ b.value < a.value := by
  rw [compareTo_eq same]
  split
  next less => simp [less.not_gt]
  next => split <;> simp [*]

end Resistance.Arith.Limbs

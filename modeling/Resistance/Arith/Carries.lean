import Resistance.Arith.BaseUint

/-! What the limb operators with a carry compute: sums, differences and products modulo the
size of the integer.
-/

namespace Resistance.Arith.Limbs

open List Lib.Digits Nat UInt32

variable {pn a b : Limbs}

theorem bounded_digits (pn : Limbs) : Bounded 32 (pn.map UInt32.toNat) :=
  forall_mem_map.mpr fun p _ => p.toNat_lt

@[simp] theorem value_nil : value [] = 0 := rfl

@[simp] theorem value_cons (p : UInt32) (ps : Limbs)
    : value (p :: ps) = p.toNat + 2 ^ 32 * value ps := by
  rw [value, map_cons, ofDigits_cons, value]

theorem value_append (low high : Limbs)
    : value (low ++ high) = value low + 2 ^ (32 * low.length) * value high := by
  rw [value, map_append, ofDigits_append, length_map, ← pow_mul, value, value]

theorem value_lt (pn : Limbs) : pn.value < 2 ^ (32 * pn.length) := by
  have bound := ofDigits_lt_base_pow_length (by decide) (bounded_digits pn)
  rwa [length_map, ← pow_mul] at bound

theorem value_take_lt (pn : Limbs) (t : Nat) : value (pn.take t) < 2 ^ (32 * t) :=
  (value_lt _).trans_le (Nat.pow_le_pow_right two_pos
    (mul_le_mul_left _ (length_take_le ..)))

@[simp] theorem length_zero (pn : Limbs) : pn.zero.length = pn.length := length_replicate

@[simp] theorem value_zero (pn : Limbs) : pn.zero.value = 0 := by
  unfold zero
  induction pn with
  | nil => rfl
  | cons p ps ih => rw [length_cons, replicate_succ, value_cons, ih]; rfl

theorem all_zero_iff (pn : Limbs) : pn.all (· == 0) = true ↔ pn.value = 0 := by
  induction pn with
  | nil => simp
  | cons p ps ih =>
    rw [all_cons, Bool.and_eq_true, beq_iff_eq, ih, value_cons, ← UInt32.toNat_inj,
      UInt32.toNat_zero]
    omega

theorem value_take_succ (pn : Limbs) (t : Nat)
    : value (pn.take (t + 1)) = value (pn.take t) + 2 ^ (32 * t) * (pn.limb t).toNat := by
  have digit : (pn.map toNat).getD t 0 = (pn.limb t).toNat := getD_map pn 0 toNat
  rw [value, map_take, ofDigits_take_succ, digit, ← map_take, ← pow_mul, value]

@[simp] theorem length_carryLoop (carry : UInt64) (addends : List UInt64)
    : (carryLoop carry addends).length = addends.length := by
  induction addends generalizing carry with
  | nil => rfl
  | cons addend addends ih => rw [carryLoop, length_cons, ih, length_cons]

variable {carry : UInt64} {j : Nat}

/-- A round that does not overflow 64 bits: the limb it leaves and the carry it passes on. -/
theorem value_carryLoop_cons {addend} (addends : List UInt64) (small : carry.toNat < 2 ^ 32)
    (fits : addend.toNat ≤ 2 ^ 64 - 2 ^ 32)
    : ∃ next : UInt64, next.toNat < 2 ^ 32
      ∧ next.toNat = (carry.toNat + addend.toNat) / 2 ^ 32
      ∧ value (carryLoop carry (addend :: addends))
        = (carry.toNat + addend.toNat) % 2 ^ 32 + 2 ^ 32 * value (carryLoop next addends) := by
  have whole : (carry + addend).toNat = carry.toNat + addend.toNat := by
    rw [UInt64.toNat_add, mod_eq_of_lt (by omega)]
  have high : ((carry + addend) >>> 32).toNat = (carry.toNat + addend.toNat) / 2 ^ 32 := by
    rw [UInt64.toNat_shiftRight, whole, shiftRight_eq_div_pow]
    rfl
  refine ⟨(carry + addend) >>> 32, by rw [high]; omega, high, ?_⟩
  rw [carryLoop, value_cons, UInt64.toNat_toUInt32, whole]

/-- The product of two limbs leaves room for a limb and a carry. -/
theorem mul_le (p q : UInt32) : p.toNat * q.toNat ≤ (2 ^ 32 - 1) * (2 ^ 32 - 1) :=
  Nat.mul_le_mul (le_pred_of_lt p.toNat_lt) (le_pred_of_lt q.toNat_lt)

theorem toNat_add_mul (factor p q : UInt32)
    : (p.toUInt64 + factor.toUInt64 * q.toUInt64).toNat = p.toNat + factor.toNat * q.toNat := by
  have product := mul_le factor q
  have := p.toNat_lt
  rw [UInt64.toNat_add, UInt64.toNat_mul, toNat_toUInt64, toNat_toUInt64, toNat_toUInt64,
    mod_eq_of_lt (by omega : factor.toNat * q.toNat < _), mod_eq_of_lt (by omega)]

/-- The loop over `pn[i] + factor * b.pn[i]`, without what the last round carries out. -/
theorem value_carryLoop_zipWith {addend} {factor : UInt32}
    (exact : ∀ p q, (addend p q).toNat = p.toNat + factor.toNat * q.toNat)
    (small : carry.toNat < 2 ^ 32) (covered : a.length ≤ b.length)
    : value (carryLoop carry (List.zipWith addend a b))
      = (carry.toNat + (a.value + factor.toNat * b.value)) % 2 ^ (32 * a.length) := by
  induction a generalizing b carry with
  | nil => simp [carryLoop, mod_one]
  | cons p ps ih =>
    cases b with
    | nil => simp at covered
    | cons q qs =>
      have fits : (addend p q).toNat ≤ 2 ^ 64 - 2 ^ 32 := by
        have product := mul_le factor q
        have := p.toNat_lt
        rw [exact]
        omega
      obtain ⟨next, bound, passed, round⟩ := value_carryLoop_cons (zipWith addend ps qs) small fits
      rw [zipWith_cons_cons, round, ih bound (le_of_succ_le_succ covered), passed,
        carry_step, exact, value_cons, value_cons, length_cons, mul_succ,
        add_comm (32 * _), pow_add]
      congr 1
      ring

theorem length_add (same : a.length = b.length) : (a.add b).length = a.length := by
  simp [add, same]

theorem value_add (same : a.length = b.length)
    : (a.add b).value = (a.value + b.value) % 2 ^ (32 * a.length) := by
  have exact : ∀ p q : UInt32,
      (p.toUInt64 + q.toUInt64).toNat = p.toNat + (1 : UInt32).toNat * q.toNat := by
    intro p q
    have := p.toNat_lt
    have := q.toNat_lt
    rw [UInt64.toNat_add, toNat_toUInt64, toNat_toUInt64, toNat_one,
      Nat.one_mul, mod_eq_of_lt (by omega)]
  rw [add, value_carryLoop_zipWith exact (by decide) same.le]
  simp

@[simp] theorem length_complement (pn : Limbs) : pn.complement.length = pn.length := length_map ..

theorem value_complement (pn : Limbs)
    : pn.complement.value + pn.value + 1 = 2 ^ (32 * pn.length) := by
  induction pn with
  | nil => rfl
  | cons p ps ih =>
    have := p.toNat_lt
    have flipped : (~~~p).toNat = 2 ^ 32 - 1 - p.toNat := toNat_not p
    rw [complement, map_cons, value_cons, value_cons, length_cons,
      mul_succ, pow_add, ← ih, complement]
    omega

@[simp] theorem length_increment (pn : Limbs) : pn.increment.length = pn.length := by
  induction pn with
  | nil => rfl
  | cons p ps ih =>
    rw [increment]
    split <;> simp [ih]

theorem value_increment (pn : Limbs)
    : pn.increment.value = (pn.value + 1) % 2 ^ (32 * pn.length) := by
  induction pn with
  | nil => simp [increment]
  | cons p ps ih =>
    have bound := p.toNat_lt
    have next : (p + 1).toNat = (p.toNat + 1) % 2 ^ 32 := UInt32.toNat_add p 1
    have split : 2 ^ (32 * (p :: ps).length) = 2 ^ 32 * 2 ^ (32 * ps.length) := by
      rw [length_cons, mul_succ, add_comm, pow_add]
    rw [increment]
    split
    next overflow =>
      have top : (p.toNat + 1) / 2 ^ 32 = 1 := by
        rw [overflow, UInt32.toNat_zero] at next
        omega
      have carried := carry_step (2 ^ 32) (2 ^ (32 * ps.length)) (value ps) (p.toNat + 1)
      rw [top, add_comm 1] at carried
      rw [value_cons, ih, split, next, carried, value_cons, add_right_comm]
    next kept =>
      have small : p.toNat + 1 < 2 ^ 32 := by
        by_contra large
        refine kept (UInt32.toNat_inj.mp ?_)
        rw [UInt32.toNat_zero]
        omega
      rw [value_cons, next, split, mod_eq_of_lt small, value_cons,
        add_right_comm p.toNat (2 ^ 32 * value ps), ← add_mul_mod small,
        mod_eq_of_lt (value_lt ps)]

theorem length_neg (pn : Limbs) : pn.neg.length = pn.length := by
  rw [neg, length_increment, length_complement]

theorem value_neg (pn : Limbs)
    : pn.neg.value = (2 ^ (32 * pn.length) - pn.value) % 2 ^ (32 * pn.length) := by
  rw [neg, value_increment, length_complement, ← value_complement pn, add_right_comm,
    Nat.add_sub_cancel]

/-- The difference of limbs that do not underflow. -/
theorem value_sub (same : a.length = b.length) (le : b.value ≤ a.value)
    : (a.sub b).value = a.value - b.value := by
  have bound := value_lt a
  have wrap : a.value + (2 ^ (32 * a.length) - b.value)
      = a.value - b.value + 2 ^ (32 * a.length) := by omega
  rw [sub, value_add (same.trans (length_neg b).symm), value_neg, ← same, add_mod_mod, wrap,
    add_mod_right, mod_eq_of_lt (by omega)]

theorem value_mul32 (pn : Limbs) (b32 : UInt32)
    : (pn.mul32 b32).value = b32.toNat * pn.value % 2 ^ (32 * pn.length) := by
  have rows : pn.map (fun p => b32.toUInt64 * p.toUInt64)
      = zipWith (fun p q => p.toUInt64 + b32.toUInt64 * q.toUInt64) pn.zero pn := by
    apply ext_getElem <;> simp [zero]
  rw [mul32, rows, value_carryLoop_zipWith (toNat_add_mul b32) (by decide) pn.length_zero.le]
  simp

/-- A row adds its multiple of `b` at its place. -/
theorem value_mulRow (inside : j ≤ pn.length) (covered : pn.length ≤ b.length)
    : (mulRow a b pn j).value
      = (pn.value + 2 ^ (32 * j) * (a.limb j).toNat * b.value) % 2 ^ (32 * pn.length) := by
  have parts : pn.value = value (pn.take j) + 2 ^ (32 * j) * value (pn.drop j) := by
    rw [← take_append_drop j pn, value_append, length_take_of_le inside, take_append_drop]
  have width : 2 ^ (32 * pn.length) = 2 ^ (32 * j) * 2 ^ (32 * (pn.drop j).length) := by
    rw [← pow_add, length_drop, ← mul_add, Nat.add_sub_cancel' inside]
  rw [mulRow, value_append, length_take_of_le inside,
    value_carryLoop_zipWith (toNat_add_mul _) (by decide) (by rw [length_drop]; omega), parts,
    width, add_mul_mod (value_take_lt pn j)]
  congr 1
  simp only [UInt64.toNat_zero]
  ring

/-- After `j` rows, the product of the first `j` limbs of `a` with `b`. -/
theorem mulRows (same : a.length = b.length) (inside : j ≤ a.length)
    : ((List.range j).foldl (mulRow a b) a.zero).length = a.length
      ∧ value ((List.range j).foldl (mulRow a b) a.zero)
        = value (a.take j) * b.value % 2 ^ (32 * a.length) := by
  induction j with
  | zero => simp
  | succ j ih =>
    obtain ⟨width, product⟩ := ih (le_of_succ_le inside)
    rw [range_succ, foldl_append, foldl_cons, foldl_nil]
    have reach : j ≤ ((range j).foldl (mulRow a b) a.zero).length := by omega
    have covered : ((range j).foldl (mulRow a b) a.zero).length ≤ b.length := by omega
    constructor
    · rw [mulRow, length_append, length_carryLoop, length_zipWith, length_take, length_drop]
      omega
    rw [value_mulRow reach covered, width, product, mod_add_mod, value_take_succ]
    congr 1
    ring

/-- `operator*=` is the product modulo the size of the integer. -/
theorem value_mul (same : a.length = b.length)
    : (a.mul b).value = a.value * b.value % 2 ^ (32 * a.length) := by
  rw [mul, (mulRows same (le_refl _)).2, take_length]

end Resistance.Arith.Limbs

import Resistance.Arith.Division

/-! `arith_uint256`: the 256-bit instance of the multi-limb integers, and what its operators
compute on values.
-/

namespace Resistance.Arith

open Nat

/-- `arith_uint256`. -/
structure ArithUint256 where
  pn : Limbs
  width : pn.length = 8
  deriving DecidableEq

namespace ArithUint256

variable (a b : ArithUint256)

/-- The integer that the limbs stand for. -/
def value : Nat := a.pn.value

/-- The constructor and the assignment from a `uint64_t`. -/
def ofUInt64 (b : UInt64) : ArithUint256 where
  pn := [b.toUInt32, (b >>> 32).toUInt32, 0, 0, 0, 0, 0, 0]
  width := rfl

/-- `operator+=`. -/
def add : ArithUint256 where
  pn := a.pn.add b.pn
  width := (Limbs.length_add (a.width.trans b.width.symm)).trans a.width

/-- `operator~`. -/
def complement : ArithUint256 where
  pn := a.pn.complement
  width := (Limbs.length_complement a.pn).trans a.width

/-- `operator*=` with a `uint32_t`. -/
def mul32 (b32 : UInt32) : ArithUint256 where
  pn := a.pn.mul32 b32
  width := by simp [Limbs.mul32, a.width]

/-- `operator*=`. -/
def mul : ArithUint256 where
  pn := a.pn.mul b.pn
  width := (Limbs.mulRows (a.width.trans b.width.symm) le_rfl).1.trans a.width

/-- `operator<<=`. -/
def shiftLeft (shift : Nat) : ArithUint256 where
  pn := a.pn.shiftLeft shift
  width := (Limbs.shiftLeft_spec a.pn shift).1.trans a.width

/-- `operator>>=`. -/
def shiftRight (shift : Nat) : ArithUint256 where
  pn := a.pn.shiftRight shift
  width := (Limbs.shiftRight_spec a.pn shift).1.trans a.width

/-- `operator/=`. -/
def div : Except String ArithUint256 :=
  if b.pn.bits = 0 then .error "Division by zero"
  else .ok ⟨a.pn.quotient b.pn, (Limbs.length_quotient a.pn b.pn).trans a.width⟩

def bits : Nat := a.pn.bits

/-- `operator>`. -/
def greater : Bool := 0 < a.pn.compareTo b.pn

/-- `operator==` with a `uint64_t`. -/
def equalTo (b : UInt64) : Bool := a.pn.equalTo b

def getLow64 : UInt64 := (a.pn.limb 0).toUInt64 ||| (a.pn.limb 1).toUInt64 <<< 32

variable {a b}

theorem sameWidth : a.pn.length = b.pn.length := a.width.trans b.width.symm

theorem value_lt (a : ArithUint256) : a.value < 2 ^ 256 := by
  have bound := Limbs.value_lt a.pn
  rwa [a.width] at bound

theorem toNat_high (b : UInt64) : (b >>> 32).toNat = b.toNat / 2 ^ 32 := by
  rw [UInt64.toNat_shiftRight, shiftRight_eq_div_pow]
  rfl

@[simp] theorem value_ofUInt64 (b : UInt64) : (ofUInt64 b).value = b.toNat := by
  have bound := b.toNat_lt
  have high : (b >>> 32).toNat = b.toNat / 2 ^ 32 := toNat_high b
  simp only [value, ofUInt64, Limbs.value_cons, Limbs.value_nil, UInt64.toNat_toUInt32, high,
    UInt32.toNat_zero]
  omega

theorem value_add (a b : ArithUint256) : (a.add b).value = (a.value + b.value) % 2 ^ 256 := by
  have sum := Limbs.value_add (sameWidth (a := a) (b := b))
  rwa [a.width] at sum

theorem value_complement (a : ArithUint256) : a.complement.value = 2 ^ 256 - 1 - a.value := by
  have whole := Limbs.value_complement a.pn
  rw [a.width] at whole
  change a.complement.value + a.value + 1 = 2 ^ 256 at whole
  omega

theorem value_mul32 (a : ArithUint256) (b32 : UInt32)
    : (a.mul32 b32).value = b32.toNat * a.value % 2 ^ 256 := by
  have product := Limbs.value_mul32 a.pn b32
  rwa [a.width] at product

theorem value_mul (a b : ArithUint256) : (a.mul b).value = a.value * b.value % 2 ^ 256 := by
  have product := Limbs.value_mul (sameWidth (a := a) (b := b))
  rwa [a.width] at product

theorem value_shiftLeft (a : ArithUint256) (shift : Nat)
    : (a.shiftLeft shift).value = (a.value <<< shift) % 2 ^ 256 := by
  have shifted := (Limbs.shiftLeft_spec a.pn shift).2
  rwa [a.width] at shifted

theorem value_shiftRight (a : ArithUint256) (shift : Nat)
    : (a.shiftRight shift).value = a.value >>> shift :=
  (Limbs.shiftRight_spec a.pn shift).2

theorem bits_eq (a : ArithUint256) : a.bits = size a.value := Limbs.bits_eq a.pn

theorem div_ok (nonzero : b.value ≠ 0)
    : ∃ quotient, a.div b = .ok quotient ∧ quotient.value = a.value / b.value := by
  have some : ¬b.pn.bits = 0 := fun none =>
    nonzero (size_eq_zero.mp ((bits_eq b).symm.trans none))
  refine ⟨_, by rw [div, if_neg some], ?_⟩
  exact Limbs.value_quotient sameWidth nonzero

theorem greater_iff : a.greater b = true ↔ b.value < a.value := by
  rw [greater, decide_eq_true_eq, Limbs.compareTo_pos sameWidth, value, value]

/-- The two lowest limbs, and the rest. -/
theorem value_limbs (a : ArithUint256)
    : a.value = (a.pn.limb 0).toNat + 2 ^ 32 * (a.pn.limb 1).toNat
        + 2 ^ 64 * Limbs.value (a.pn.drop 2) := by
  obtain ⟨pn, width⟩ := a
  match pn, width with
  | p :: q :: rest, _ =>
    change Limbs.value (p :: q :: rest) = p.toNat + 2 ^ 32 * q.toNat + 2 ^ 64 * Limbs.value rest
    rw [Limbs.value_cons, Limbs.value_cons]
    ring

theorem value_getLow64 (a : ArithUint256) : a.getLow64.toNat = a.value % 2 ^ 64 := by
  have low := (a.pn.limb 0).toNat_lt
  have high := (a.pn.limb 1).toNat_lt
  have shifted : ((a.pn.limb 1).toUInt64 <<< 32).toNat = 2 ^ 32 * (a.pn.limb 1).toNat := by
    rw [UInt64.toNat_shiftLeft, shiftLeft_eq, mul_comm]
    exact mod_eq_of_lt (mul_lt_mul_of_pos_left high (by decide))
  rw [getLow64, UInt64.toNat_or, shifted, UInt32.toNat_toUInt64, Nat.or_comm,
    ← two_pow_add_eq_or_of_lt low, value_limbs, add_mul_mod_self_left, add_comm,
    mod_eq_of_lt (by omega)]

/-- `EqualTo` compares all limbs. -/
theorem equalTo_iff (b : UInt64) : a.equalTo b = true ↔ a.value = b.toNat := by
  have low := (a.pn.limb 0).toNat_lt
  have bound := b.toNat_lt
  have lowMask : (b &&& 0xffffffff).toNat = b.toNat % 2 ^ 32 := by
    exact and_two_pow_sub_one_eq_mod b.toNat 32
  have rest : (a.pn.drop 2).all (· == 0) = true ↔ Limbs.value (a.pn.drop 2) = 0 :=
    Limbs.all_zero_iff _
  rw [equalTo, Limbs.equalTo, Bool.and_eq_true, Bool.and_eq_true, beq_iff_eq, beq_iff_eq, rest,
    ← UInt64.toNat_inj, ← UInt64.toNat_inj, UInt32.toNat_toUInt64, UInt32.toNat_toUInt64,
    toNat_high, value_limbs]
  omega

end ArithUint256

end Resistance.Arith

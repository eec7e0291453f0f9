import Resistance.Arith.ArithUint256

/-! The compact encoding of targets, `SetCompact` and `GetCompact`, on limbs. Decoding gives
what a compact target means on integers; encoding keeps the leading bytes and never sets a flag.
-/

namespace Resistance.Arith

open UInt32

/-- What `SetCompact` leaves: the integer, and its two flags. -/
structure Decoded where
  target : ArithUint256
  fNegative : Bool
  fOverflow : Bool

/-- A compact target on integers. -/
structure CompactTarget where
  target : Nat
  fNegative : Bool
  fOverflow : Bool

/-- What a compact target means: the integer that `SetCompact` is to find, and its flags. -/
def decodeCompact (nCompact : UInt32) : CompactTarget :=
  let nSize := (nCompact >>> 24).toNat
  let mantissa := (nCompact &&& 0x007fffff).toNat
  let nWord := if nSize ≤ 3 then mantissa >>> (8 * (3 - nSize)) else mantissa
  {
    target := if nSize ≤ 3 then nWord else (nWord <<< (8 * (nSize - 3))) % 2 ^ 256
    fNegative := nWord ≠ 0 && nCompact &&& 0x00800000 ≠ 0
    fOverflow := nWord ≠ 0
      && (nSize > 34 || (nWord > 0xff && nSize > 33) || (nWord > 0xffff && nSize > 32))
  }

/-- An integer with all bytes below its leading ones set to zero: below the first two if the
highest bit of the first is set, and else below the first three.
-/
def keepLeading (x : Nat) : Nat :=
  let dropped := (x.size + 7) / 8 - (if 8 ∣ x.size then 2 else 3)
  x / 256 ^ dropped * 256 ^ dropped

theorem keepLeading_eq (x : Nat)
    : keepLeading x = x / 256 ^ (x.size / 8 - 2) * 256 ^ (x.size / 8 - 2) := by
  have same : (x.size + 7) / 8 - (if 8 ∣ x.size then 2 else 3) = x.size / 8 - 2 := by
    split <;> omega
  rw [keepLeading, same]

theorem keepLeading_le (x : Nat) : keepLeading x ≤ x := Nat.div_mul_le_self _ _

/-- The highest bit is among the leading bytes. -/
theorem le_keepLeading {x i} (bit : i < x.size) : 2 ^ i ≤ keepLeading x := by
  have split : 2 ^ (x.size - 1)
      = 2 ^ (x.size - 1 - 8 * (x.size / 8 - 2)) * 256 ^ (x.size / 8 - 2) := by
    rw [← Nat.pow_mul 2 8, ← Nat.pow_add]
    congr 1
    omega
  have whole : 2 ^ (x.size - 1) ≤ keepLeading x := by
    rw [keepLeading_eq, split]
    refine Nat.mul_le_mul_right _ ((Nat.le_div_iff_mul_le (Nat.pow_pos (by decide))).mpr ?_)
    exact split ▸ Nat.lt_size.mp (by omega)
  exact (Nat.pow_le_pow_right Nat.two_pos (by omega)).trans whole

theorem size_keepLeading (x : Nat) : (keepLeading x).size = x.size := by
  refine le_antisymm (Nat.size_le_size (keepLeading_le x)) ?_
  by_contra less
  exact absurd (le_keepLeading (Nat.lt_of_not_le less)) (Nat.lt_size_self _).not_ge

theorem keepLeading_keepLeading (x : Nat) : keepLeading (keepLeading x) = keepLeading x := by
  rw [keepLeading_eq, size_keepLeading, keepLeading_eq x,
    Nat.mul_div_cancel _ (Nat.pow_pos (by decide))]

theorem keepLeading_mono : Monotone keepLeading := by
  intro x y le
  have sizes := Nat.size_le_size le
  by_cases same : x.size / 8 - 2 = y.size / 8 - 2
  · rw [keepLeading_eq, keepLeading_eq, same]
    exact Nat.mul_le_mul_right _ (Nat.div_le_div_right le)
  · have bit : x.size < y.size := by omega
    exact (keepLeading_le x).trans ((Nat.lt_size_self x).le.trans (le_keepLeading bit))

/-- The number that a compact target stands for, up to its sign and times `256 ^ 3`. -/
def scaled (nCompact : UInt32) : Nat :=
  (nCompact &&& 0x007fffff).toNat * 256 ^ (nCompact >>> 24).toNat

/-- Decoding reports overflow exactly when the number does not fit, and drops its fraction. -/
theorem setCompact_scaled (nCompact : UInt32)
    : ((decodeCompact nCompact).fOverflow = true ↔ 2 ^ 256 * 256 ^ 3 ≤ scaled nCompact)
      ∧ (decodeCompact nCompact).target = scaled nCompact / 256 ^ 3 % 2 ^ 256 := by
  have small : (nCompact &&& 0x007fffff).toNat < 2 ^ 23 := by
    exact Nat.lt_succ_of_le Nat.and_le_right
  unfold decodeCompact scaled
  generalize (nCompact &&& 0x007fffff).toNat = mantissa at small ⊢
  generalize (nCompact >>> 24).toNat = exponent
  constructor
  · obtain inside | rfl | rfl | far
        : exponent ≤ 32 ∨ exponent = 33 ∨ exponent = 34 ∨ 35 ≤ exponent := by omega
    · have bound : mantissa * 256 ^ exponent < 2 ^ 23 * 256 ^ 32 :=
        Nat.mul_lt_mul_of_lt_of_le small (Nat.pow_le_pow_right (by decide) inside) (by positivity)
      simp
      omega
    iterate 2
      · simp
        omega
    · have power : 256 ^ 35 ≤ 256 ^ exponent := Nat.pow_le_pow_right (by decide) far
      rcases Nat.eq_zero_or_pos mantissa with rfl | pos
      · simp
      · have bound := power.trans (Nat.le_mul_of_pos_left (256 ^ exponent) pos)
        have large : ¬ exponent ≤ 3 := by omega
        simp [large]
        omega
  · by_cases short : exponent ≤ 3
    · have power : 256 ^ 3 = 256 ^ (3 - exponent) * 256 ^ exponent := by
        rw [← Nat.pow_add, Nat.sub_add_cancel short]
      simp only [short]
      rw [power, Nat.mul_div_mul_right _ _ (by positivity), Nat.shiftRight_eq_div_pow, Nat.pow_mul]
      refine (Nat.mod_eq_of_lt ((Nat.div_le_self _ _).trans_lt ?_)).symm
      omega
    · have power : 256 ^ exponent = 256 ^ (exponent - 3) * 256 ^ 3 := by
        rw [← Nat.pow_add, Nat.sub_add_cancel (Nat.le_of_not_le short)]
      simp only [short, if_false]
      rw [power, ← Nat.mul_assoc, Nat.mul_div_cancel _ (by positivity), Nat.shiftLeft_eq,
        Nat.pow_mul]

namespace ArithUint256

def setCompact (nCompact : UInt32) : Decoded :=
  let nSize := (nCompact >>> 24).toNat
  let mantissa := nCompact &&& 0x007fffff
  let nWord := if nSize ≤ 3 then mantissa >>> ofNat (8 * (3 - nSize)) else mantissa
  {
    target := if nSize ≤ 3 then ofUInt64 nWord.toUInt64
      else (ofUInt64 nWord.toUInt64).shiftLeft (8 * (nSize - 3))
    fNegative := nWord ≠ 0 && nCompact &&& 0x00800000 ≠ 0
    fOverflow := nWord ≠ 0
      && (nSize > 34 || (nWord > 0xff && nSize > 33) || (nWord > 0xffff && nSize > 32))
  }

/-- The three highest bytes of an integer of `nSize` bytes. -/
def topBytes (a : ArithUint256) (nSize : Nat) : UInt32 :=
  if nSize ≤ 3 then (a.getLow64 <<< UInt64.ofNat (8 * (3 - nSize))).toUInt32
  else (a.shiftRight (8 * (nSize - 3))).getLow64.toUInt32

/-- The mantissa and the exponent that `GetCompact` puts together. -/
def compactParts (a : ArithUint256) : UInt32 × Nat :=
  let nSize := (a.bits + 7) / 8
  let nCompact := a.topBytes nSize
  -- The 0x00800000 bit denotes the sign.
  if nCompact &&& 0x00800000 ≠ 0 then (nCompact >>> 8, nSize + 1) else (nCompact, nSize)

def getCompact (a : ArithUint256) (fNegative : Bool := false) : UInt32 :=
  let (nCompact, nSize) := a.compactParts
  let nCompact := nCompact ||| ofNat nSize <<< 24
  nCompact ||| (if fNegative && nCompact &&& 0x007fffff ≠ 0 then 0x00800000 else 0)

/-- Decoding on limbs is decoding on integers. -/
theorem setCompact_eq (nCompact : UInt32)
    : (setCompact nCompact).target.value = (decodeCompact nCompact).target
      ∧ (setCompact nCompact).fNegative = (decodeCompact nCompact).fNegative
      ∧ (setCompact nCompact).fOverflow = (decodeCompact nCompact).fOverflow := by
  have nonzero : ∀ nWord : UInt32, decide (nWord ≠ 0) = decide (nWord.toNat ≠ 0) := fun nWord =>
    decide_eq_decide.mpr (not_congr UInt32.toNat_inj.symm)
  have above : ∀ (nWord bound : UInt32),
      decide (nWord > bound) = decide (nWord.toNat > bound.toNat) := fun nWord bound =>
    decide_eq_decide.mpr lt_iff_toNat_lt
  unfold setCompact decodeCompact
  by_cases short : (nCompact >>> 24).toNat ≤ 3
  · have word : ((nCompact &&& 0x007fffff)
          >>> ofNat (8 * (3 - (nCompact >>> 24).toNat))).toNat
        = (nCompact &&& 0x007fffff).toNat >>> (8 * (3 - (nCompact >>> 24).toNat)) := by
      rw [UInt32.toNat_shiftRight, UInt32.toNat_ofNat_of_lt' (by simp [UInt32.size]; omega),
        Nat.mod_eq_of_lt (by omega)]
    simp only [short, if_true, nonzero, above, word, value_ofUInt64, toNat_toUInt64]
    exact ⟨trivial, trivial, rfl⟩
  · simp only [short, if_false, nonzero, value_shiftLeft, value_ofUInt64, toNat_toUInt64]
    exact ⟨trivial, trivial, rfl⟩

/-- A decoded target leaves room for its successor. -/
theorem setCompact_lt (nCompact : UInt32)
    : (decodeCompact nCompact).target < 2 ^ 256 - 1 := by
  unfold decodeCompact
  by_cases short : (nCompact >>> 24).toNat ≤ 3
  · simp only [short]
    have bound := (nCompact &&& 0x007fffff).toNat_lt
    calc _ ≤ (nCompact &&& 0x007fffff).toNat := Nat.shiftRight_le _ _
      _ < 2 ^ 256 - 1 := by omega
  · simp only [short, if_false]
    -- A shifted word is even, and the last integer is odd.
    have even : 2 ∣ ((nCompact &&& 0x007fffff).toNat
        <<< (8 * ((nCompact >>> 24).toNat - 3))) % 2 ^ 256 := by
      refine (Nat.dvd_mod_iff (by decide)).mpr ?_
      rw [Nat.shiftLeft_eq]
      exact Dvd.dvd.mul_left (dvd_pow_self 2 (by omega)) _
    omega

/-- A mantissa and an exponent that stand for an integer rounded down to the mantissa's bits,
and that decoding takes for neither negative nor overflowing.
-/
structure Encodes (value mantissa exponent : Nat) : Prop where
  unsigned : mantissa < 2 ^ 23
  inRange : exponent ≤ 33
  topRange : exponent = 33 → mantissa < 2 ^ 16
  scaledUp : exponent ≤ 3 → mantissa = value * 2 ^ (8 * (3 - exponent))
  scaledDown : 3 < exponent → mantissa = value / 2 ^ (8 * (exponent - 3))
  nonzero : value ≠ 0 → mantissa ≠ 0

/-- A mantissa that is filled up fixes the exponent. -/
theorem Encodes.exponent_eq {value mantissa exponent} (encodes : Encodes value mantissa exponent)
    (filled : 2 ^ 15 ≤ mantissa)
    : exponent = Nat.size value / 8 + 1 := by
  have unsigned := encodes.unsigned
  by_cases short : exponent ≤ 3
  · have nonzero : value ≠ 0 := by
      rintro rfl
      rw [encodes.scaledUp short, Nat.zero_mul] at filled
      cases filled
    rw [encodes.scaledUp short, ← Nat.shiftLeft_eq] at filled unsigned
    rw [← Nat.lt_size, Nat.size_shiftLeft nonzero] at filled
    rw [← Nat.size_le, Nat.size_shiftLeft nonzero] at unsigned
    omega
  · rw [encodes.scaledDown (Nat.lt_of_not_le short)] at filled unsigned
    rw [Nat.le_div_iff_mul_le (Nat.two_pow_pos _), ← Nat.pow_add, ← Nat.lt_size] at filled
    rw [Nat.div_lt_iff_lt_mul (Nat.two_pow_pos _), ← Nat.pow_add, ← Nat.size_le] at unsigned
    omega

theorem signBit_iff (m : UInt32) : m &&& 0x00800000 ≠ 0 ↔ m.toNat.testBit 23 = true := by
  have mask : (0x00800000 : UInt32) = 1 <<< ofNat 23 := by decide
  rw [mask, Limbs.and_one_shiftLeft_ne_zero m (by decide)]

theorem signBit_iff_le {m : UInt32} (short : m.toNat < 2 ^ 24)
    : m &&& 0x00800000 ≠ 0 ↔ 2 ^ 23 ≤ m.toNat := by
  rw [signBit_iff]
  refine ⟨Nat.ge_two_pow_of_testBit, fun reached => ?_⟩
  exact Nat.testBit_of_two_pow_le_and_two_pow_add_one_gt reached short

/-- What `topBytes` returns for the integer's own number of bytes. -/
structure TopBytes (value bytes nSize : Nat) : Prop where
  short : bytes < 2 ^ 24
  inRange : nSize ≤ 32
  scaledUp : nSize ≤ 3 → bytes = value * 2 ^ (8 * (3 - nSize))
  scaledDown : 3 ≤ nSize → bytes = value / 2 ^ (8 * (nSize - 3))
  filled : value ≠ 0 → 2 ^ 16 ≤ bytes

theorem topBytes_spec (a : ArithUint256)
    : TopBytes a.value (a.topBytes ((a.bits + 7) / 8)).toNat ((a.bits + 7) / 8) := by
  rw [bits_eq]
  generalize sized : (Nat.size a.value + 7) / 8 = nSize
  have inRange : nSize ≤ 32 := by
    have := Nat.size_le.mpr a.value_lt
    omega
  have below : a.value < 2 ^ (8 * nSize) := Nat.size_le.mp (by omega)
  have above : a.value ≠ 0 → 2 ^ (8 * (nSize - 1)) ≤ a.value := by
    intro nonzero
    have pos := Nat.size_pos.mpr (Nat.pos_of_ne_zero nonzero)
    exact Nat.lt_size.mp (by omega)
  unfold topBytes
  by_cases small : nSize ≤ 3
  · have bound : a.value * 2 ^ (8 * (3 - nSize)) < 2 ^ 24 := by
      calc a.value * 2 ^ (8 * (3 - nSize)) < 2 ^ (8 * nSize) * 2 ^ (8 * (3 - nSize)) :=
            Nat.mul_lt_mul_of_pos_right below (Nat.two_pow_pos _)
        _ = 2 ^ 24 := by rw [← Nat.pow_add]; congr 1; omega
    have narrow : a.value < 2 ^ 64 := below.trans_le (Nat.pow_le_pow_right Nat.two_pos (by omega))
    have bytes : (a.getLow64 <<< UInt64.ofNat (8 * (3 - nSize))).toUInt32.toNat
        = a.value * 2 ^ (8 * (3 - nSize)) := by
      rw [UInt64.toNat_toUInt32, UInt64.toNat_shiftLeft, value_getLow64,
        UInt64.toNat_ofNat_of_lt' (by simp [UInt64.size]; omega), Nat.shiftLeft_eq,
        Nat.mod_eq_of_lt (show 8 * (3 - nSize) < 64 by omega), Nat.mod_eq_of_lt narrow,
        Nat.mod_eq_of_lt (by omega), Nat.mod_eq_of_lt (by omega)]
    rw [if_pos small, bytes]
    refine ⟨bound, inRange, fun _ => rfl, ?_, ?_⟩
    · intro large
      rw [Nat.le_antisymm small large, Nat.pow_zero, Nat.mul_one, Nat.div_one]
    intro nonzero
    calc 2 ^ 16 ≤ 2 ^ (8 * (nSize - 1) + 8 * (3 - nSize)) :=
          Nat.pow_le_pow_right Nat.two_pos (by omega)
      _ = 2 ^ (8 * (nSize - 1)) * 2 ^ (8 * (3 - nSize)) := Nat.pow_add ..
      _ ≤ a.value * 2 ^ (8 * (3 - nSize)) := Nat.mul_le_mul_right _ (above nonzero)
  · have bound : a.value / 2 ^ (8 * (nSize - 3)) < 2 ^ 24 := by
      refine Nat.div_lt_of_lt_mul (below.trans_eq ?_)
      rw [← Nat.pow_add]
      congr 1
      omega
    have bytes : (a.shiftRight (8 * (nSize - 3))).getLow64.toUInt32.toNat
        = a.value / 2 ^ (8 * (nSize - 3)) := by
      rw [UInt64.toNat_toUInt32, value_getLow64, value_shiftRight, Nat.shiftRight_eq_div_pow,
        Nat.mod_eq_of_lt (bound.trans (by decide)), Nat.mod_eq_of_lt (bound.trans (by decide))]
    rw [if_neg small, bytes]
    refine ⟨bound, inRange, fun less => absurd less small, fun _ => rfl, ?_⟩
    intro nonzero
    refine (Nat.le_div_iff_mul_le (Nat.two_pow_pos _)).mpr (le_trans (Eq.le ?_) (above nonzero))
    rw [← Nat.pow_add]
    congr 1
    omega

/-- Moving a byte out of the mantissa where its sign bit would be set. -/
theorem compactParts_spec (a : ArithUint256)
    : Encodes a.value a.compactParts.1.toNat a.compactParts.2 := by
  have top := topBytes_spec a
  unfold compactParts
  generalize (a.bits + 7) / 8 = nSize at top
  simp only
  split
  next signed =>
    have large := (signBit_iff_le top.short).mp signed
    have moved : (a.topBytes nSize >>> 8).toNat = (a.topBytes nSize).toNat / 2 ^ 8 := by
      rw [UInt32.toNat_shiftRight, Nat.shiftRight_eq_div_pow]
      rfl
    have short := top.short
    rw [moved]
    refine ⟨by omega, Nat.succ_le_succ top.inRange, fun _ => by omega, ?_, ?_, fun _ => by omega⟩
    · intro small
      have split : 8 * (3 - nSize) = 8 * (3 - (nSize + 1)) + 8 := by omega
      rw [top.scaledUp (by omega), split, Nat.pow_add, ← Nat.mul_assoc,
        Nat.mul_div_cancel _ (Nat.two_pow_pos 8)]
    · intro wide
      have split : 8 * (nSize + 1 - 3) = 8 * (nSize - 3) + 8 := by omega
      rw [top.scaledDown (by omega), split, Nat.pow_add, Nat.div_div_eq_div_mul]
  next unsigned =>
    have small := Nat.lt_of_not_le (mt (signBit_iff_le top.short).mpr unsigned)
    refine ⟨small, Nat.le_succ_of_le top.inRange, ?_, top.scaledUp, ?_, ?_⟩
    · intro outside
      exact absurd top.inRange (by omega)
    · exact fun wide => top.scaledDown wide.le
    · exact fun nonzero => (Nat.lt_of_lt_of_le (by decide) (top.filled nonzero)).ne'

/-- The word that `GetCompact` returns. -/
theorem toNat_getCompact (a : ArithUint256)
    : a.getCompact.toNat = a.compactParts.1.toNat + 2 ^ 24 * a.compactParts.2 := by
  have parts := compactParts_spec a
  have unsigned := parts.unsigned
  have inRange := parts.inRange
  have exponent : (ofNat a.compactParts.2 <<< 24).toNat = 2 ^ 24 * a.compactParts.2 := by
    rw [UInt32.toNat_shiftLeft, UInt32.toNat_ofNat_of_lt' (by simp [UInt32.size]; omega)]
    change (a.compactParts.2 <<< 24) % 2 ^ 32 = _
    omega
  unfold getCompact
  simp only [Bool.false_and, Bool.false_eq_true, if_false, UInt32.or_zero]
  rw [UInt32.toNat_or, exponent, Nat.or_comm,
    ← Nat.two_pow_add_eq_or_of_lt (unsigned.trans (by decide)), Nat.add_comm]

/-- The exponent depends on the number of bits alone. -/
theorem compactParts_exponent (a : ArithUint256)
    : a.compactParts.2 = if a.value = 0 then 0 else Nat.size a.value / 8 + 1 := by
  have top := topBytes_spec a
  split
  next zero =>
    have none : (a.bits + 7) / 8 = 0 := by rw [bits_eq, zero, Nat.size_zero]
    rw [none, zero] at top
    have bytes : a.topBytes 0 = 0 := UInt32.toNat_inj.mp (top.scaledUp (Nat.zero_le 3))
    simp [compactParts, none, bytes]
  next nonzero =>
    refine (compactParts_spec a).exponent_eq ?_
    unfold compactParts
    dsimp only
    split
    next signed =>
      rw [UInt32.toNat_shiftRight, Nat.shiftRight_eq_div_pow]
      exact (Nat.le_div_iff_mul_le (Nat.two_pow_pos _)).mpr ((signBit_iff_le top.short).mp signed)
    next => exact le_trans (by decide) (top.filled nonzero)

/-- The mantissa and the exponent stand for the leading bytes. -/
theorem compactParts_decoded (a : ArithUint256)
    : a.compactParts.1.toNat * 256 ^ a.compactParts.2 = keepLeading a.value * 256 ^ 3 := by
  have parts := compactParts_spec a
  have dropped : Nat.size a.value / 8 - 2 = a.compactParts.2 - 3 := by
    rw [compactParts_exponent]
    split
    next zero => rw [zero, Nat.size_zero]
    next => rfl
  rw [keepLeading_eq, dropped]
  by_cases short : a.compactParts.2 ≤ 3
  · rw [parts.scaledUp short, Nat.sub_eq_zero_of_le short, Nat.pow_zero, Nat.div_one,
      Nat.mul_one, Nat.mul_assoc, Nat.pow_mul, ← Nat.pow_add, Nat.sub_add_cancel short]
  · have long := Nat.lt_of_not_le short
    rw [parts.scaledDown long, Nat.pow_mul, Nat.mul_assoc, ← Nat.pow_add,
      Nat.sub_add_cancel long.le]

/-- Decoding what is encoded gives the leading bytes, and sets no flag. -/
theorem decode_getCompact (a : ArithUint256)
    : (decodeCompact a.getCompact).fNegative = false
      ∧ (decodeCompact a.getCompact).fOverflow = false
      ∧ (decodeCompact a.getCompact).target = keepLeading a.value := by
  have parts := compactParts_spec a
  have word := toNat_getCompact a
  have unsigned := parts.unsigned
  have mantissa : (a.getCompact &&& 0x007fffff).toNat = a.compactParts.1.toNat := by
    rw [UInt32.toNat_and]
    refine (Nat.and_two_pow_sub_one_eq_mod _ 23).trans ?_
    omega
  have exponent : (a.getCompact >>> 24).toNat = a.compactParts.2 := by
    rw [UInt32.toNat_shiftRight, Nat.shiftRight_eq_div_pow, word]
    change (_ + 2 ^ 24 * _) / 2 ^ 24 = _
    omega
  have low : scaled a.getCompact = keepLeading a.value * 256 ^ 3 := by
    rw [scaled, mantissa, exponent, compactParts_decoded]
  have sign : a.getCompact &&& 0x00800000 = 0 := by
    have clear : a.getCompact.toNat.testBit 23 = false := by
      rw [Nat.testBit_eq_decide_div_mod_eq, decide_eq_false_iff_not]
      omega
    by_contra set
    rw [← ne_eq, signBit_iff, clear] at set
    cases set
  obtain ⟨overflow, target⟩ := setCompact_scaled a.getCompact
  have bound := (keepLeading_le a.value).trans_lt a.value_lt
  rw [low, Nat.mul_div_cancel _ (by decide), Nat.mod_eq_of_lt bound] at target
  rw [← Bool.not_eq_false, not_iff_comm] at overflow
  refine ⟨?_, overflow.mp (by omega), target⟩
  simp [decodeCompact, sign]

/-- Encoding and decoding sets no flag, rounds down, and keeps an integer from vanishing. -/
theorem setCompact_getCompact (a : ArithUint256)
    : (decodeCompact a.getCompact).fNegative = false
      ∧ (decodeCompact a.getCompact).fOverflow = false
      ∧ (decodeCompact a.getCompact).target ≤ a.value
      ∧ (a.value ≠ 0 → (decodeCompact a.getCompact).target ≠ 0) := by
  obtain ⟨negative, overflow, target⟩ := decode_getCompact a
  rw [target]
  refine ⟨negative, overflow, keepLeading_le _, fun nonzero => ?_⟩
  exact Nat.ne_of_gt (le_keepLeading (Nat.size_pos.mpr (Nat.pos_of_ne_zero nonzero)))

/-- What is encoded is a function of the leading bytes. -/
theorem getCompact_of_keepLeading {a b : ArithUint256} (same : b.value = keepLeading a.value)
    : b.getCompact = a.getCompact := by
  have exponent : b.compactParts.2 = a.compactParts.2 := by
    have zero : b.value = 0 ↔ a.value = 0 := by
      rw [← Nat.size_eq_zero, same, size_keepLeading, Nat.size_eq_zero]
    simp only [compactParts_exponent, zero]
    rw [same, size_keepLeading]
  have mantissa : b.compactParts.1.toNat * 256 ^ a.compactParts.2
      = a.compactParts.1.toNat * 256 ^ a.compactParts.2 := by
    rw [compactParts_decoded, ← exponent, compactParts_decoded, same, keepLeading_keepLeading]
  rw [← UInt32.toNat_inj, toNat_getCompact, toNat_getCompact, exponent,
    Nat.eq_of_mul_eq_mul_right (Nat.pow_pos (by decide)) mantissa]

/-- Compact targets keep the leading bytes, in order, and a decoded one is encoded as it was; a
compact target is decoded to the integer part of what it stands for, unless that overflows.
-/
theorem compact_targets
    : (∀ a : ArithUint256, (setCompact a.getCompact).fNegative = false
        ∧ (setCompact a.getCompact).fOverflow = false
        ∧ (setCompact a.getCompact).target.value = keepLeading a.value
        ∧ (setCompact a.getCompact).target.getCompact = a.getCompact)
      ∧ (∀ a b : ArithUint256, a.value ≤ b.value
        → (setCompact a.getCompact).target.value ≤ (setCompact b.getCompact).target.value)
      ∧ ∀ nCompact,
        ((setCompact nCompact).fOverflow = true ↔ 2 ^ 256 * 256 ^ 3 ≤ scaled nCompact)
        ∧ ((setCompact nCompact).fOverflow = false
          → (setCompact nCompact).target.value = scaled nCompact / 256 ^ 3) := by
  have decoded (a : ArithUint256)
      : (setCompact a.getCompact).target.value = keepLeading a.value := by
    rw [(setCompact_eq _).1, (decode_getCompact a).2.2]
  refine ⟨fun a => ?_, fun a b le => ?_, fun nCompact => ?_⟩
  · obtain ⟨-, negative, overflow⟩ := setCompact_eq a.getCompact
    obtain ⟨nonnegative, inRange, -⟩ := decode_getCompact a
    exact ⟨negative.trans nonnegative, overflow.trans inRange, decoded a,
      getCompact_of_keepLeading (decoded a)⟩
  · rw [decoded, decoded]
    exact keepLeading_mono le
  obtain ⟨value, -, overflow⟩ := setCompact_eq nCompact
  obtain ⟨fits, target⟩ := setCompact_scaled nCompact
  rw [overflow, value, target]
  refine ⟨fits, fun inside => Nat.mod_eq_of_lt ?_⟩
  rw [Nat.div_lt_iff_lt_mul (by decide), ← Nat.not_le, ← fits, inside]
  decide

end ArithUint256

end Resistance.Arith

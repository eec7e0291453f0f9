import Resistance.Primitives.Serialize

/-! The variable-length integers of `serialize.h`: base 128 with the most significant digit
first, where every digit but the last has its high bit set and counts one more.
-/

namespace Resistance.Primitives

open Lib.Codec Nat UInt8 List

/-- `tmp` of `WriteVarInt` in the order in which it is written, for an array of `len` bytes; all
but the last byte to be written have the high bit `flag`.
-/
def varIntBytes : Nat → UInt8 → Nat → Bytes
  | 0, _, _ => []
  | len + 1, flag, n =>
    let last := UInt8.ofNat (n &&& 0x7F) ||| flag
    if n ≤ 0x7F then [last] else varIntBytes len 0x80 ((n >>> 7) - 1) ++ [last]

/-- `WriteVarInt` of an integer type of `width` bits. -/
def writeVarInt (width n : Nat) : Bytes := varIntBytes ((width + 6) / 7) 0 n

def getSizeOfVarInt (n : Nat) : Nat :=
  if n ≤ 0x7F then 1 else getSizeOfVarInt ((n >>> 7) - 1) + 1
termination_by n
decreasing_by
  have : n >>> 7 = n / 128 := shiftRight_eq_div_pow n 7
  omega

/-- The loop of `ReadVarInt`; `n` wraps around at `width` bits. -/
def readVarIntFrom (width : Nat) : Nat → Reader String Nat
  | _, [] => .error endOfData
  | n, chData :: rest =>
    let n := ((n <<< 7) ||| (chData &&& 0x7F).toNat) % 2 ^ width
    if chData &&& 0x80 ≠ 0 then readVarIntFrom width ((n + 1) % 2 ^ width) rest
    else .ok (n, rest)

def readVarInt (width : Nat) : Reader String Nat := readVarIntFrom width 0

/-- The loop of `ReadVarInt` over integers of any size: the number that the bytes encode. -/
def exactFrom : Nat → Reader String Nat
  | _, [] => .error endOfData
  | n, chData :: rest =>
    let n := n * 128 + (chData &&& 0x7F).toNat
    if chData &&& 0x80 ≠ 0 then exactFrom (n + 1) rest else .ok (n, rest)

/-- The bytes of an encoding before its last, which have brought the loop to `high`. -/
def leadingDigits : Nat → Bytes
  | 0 => []
  | high + 1 => leadingDigits (high / 128) ++ [UInt8.ofNat (high % 128) ||| 0x80]

theorem digit_bits : ∀ low : Fin 128,
    (ofNat low.val ||| 0x80) &&& 0x80 ≠ 0
      ∧ ((ofNat low.val ||| 0x80) &&& 0x7F).toNat = low.val
      ∧ ofNat low.val &&& 0x80 = 0
      ∧ (ofNat low.val &&& 0x7F).toNat = low.val := by
  decide

theorem byte_digit (b : UInt8)
    : ∃ low < 128, b = ofNat low ||| 0x80 ∨ b = ofNat low := by
  have all : ∀ i : Fin 256, ofNat i.val = ofNat (i.val % 128) ||| 0x80
      ∨ ofNat i.val = ofNat (i.val % 128) := by
    decide +kernel
  refine ⟨b.toNat % 128, mod_lt _ (by decide), ?_⟩
  simpa using all ⟨b.toNat, b.toNat_lt⟩

variable {width n m high low : Nat} {rest : Bytes}

theorem low_digit (n : Nat) : n &&& 0x7F = n % 128 := and_two_pow_sub_one_eq_mod n 7

theorem high_digits (n : Nat) : n >>> 7 = n / 128 := shiftRight_eq_div_pow n 7

theorem exactFrom_more (digit : low < 128)
    : exactFrom high ((ofNat low ||| 0x80) :: rest) = exactFrom (high * 128 + low + 1) rest := by
  obtain ⟨set, value, -⟩ := digit_bits ⟨low, digit⟩
  rw [exactFrom]
  simp only [value, if_pos set]

theorem exactFrom_last (digit : low < 128)
    : exactFrom high (ofNat low :: rest) = .ok (high * 128 + low, rest) := by
  obtain ⟨-, -, clear, value⟩ := digit_bits ⟨low, digit⟩
  rw [exactFrom]
  simp only [value, if_neg (not_not.mpr clear)]

theorem exactFrom_leadingDigits (bytes : Bytes)
    : exactFrom 0 (leadingDigits high ++ bytes) = exactFrom high bytes := by
  fun_induction leadingDigits high generalizing bytes with
  | case1 => rfl
  | case2 high ih =>
    rw [append_assoc, ih, singleton_append, exactFrom_more (mod_lt _ (by decide)), div_add_mod']

/-- What has been read of an encoding is the encoding of what the loop holds. -/
theorem digits_of_exactFrom {bytes} (run : exactFrom high bytes = .ok (n, rest))
    : leadingDigits high ++ bytes = leadingDigits (n / 128) ++ ofNat (n % 128) :: rest := by
  induction bytes generalizing high with
  | nil => cases run
  | cons b bytes ih =>
    obtain ⟨low, digit, rfl | rfl⟩ := byte_digit b
    all_goals
      have top : (high * 128 + low) / 128 = high := by omega
      have bottom : (high * 128 + low) % 128 = low := by omega
    · rw [exactFrom_more digit] at run
      simpa only [leadingDigits, top, bottom, append_assoc, singleton_append] using ih run
    · rw [exactFrom_last digit] at run
      cases run
      rw [top, bottom]

/-- Wrapping around at every step comes to wrapping around at the end. -/
theorem readVarIntFrom_eq (width n : Nat) (bytes : Bytes)
    : readVarIntFrom width (n % 2 ^ width) bytes
      = (exactFrom n bytes).map fun (value, rest) => (value % 2 ^ width, rest) := by
  induction bytes generalizing n with
  | nil => rfl
  | cons b bytes ih =>
    have digit : (b &&& 0x7F).toNat < 2 ^ 7 := by
      exact and_lt_two_pow _ (by decide)
    have joined : ((n % 2 ^ width) <<< 7 ||| (b &&& 0x7F).toNat) % 2 ^ width
        = (n * 128 + (b &&& 0x7F).toNat) % 2 ^ width := by
      rw [← shiftLeft_add_eq_or_of_lt digit, shiftLeft_eq, add_mod, mod_mul_mod, ← add_mod]
    rw [readVarIntFrom, exactFrom]
    simp only [joined, mod_add_mod]
    split
    · exact ih _
    · rfl

/-- The buffer has room for the digits of any integer of the type. -/
theorem writeVarInt_eq (pos : 0 < width) (small : n < 2 ^ width)
    : writeVarInt width n = leadingDigits (n / 128) ++ [ofNat (n % 128)] := by
  have written : ∀ {len n : Nat} (flag : UInt8), n < 128 ^ (len + 1)
      → varIntBytes (len + 1) flag n = leadingDigits (n / 128) ++ [ofNat (n % 128) ||| flag] := by
    intro len
    induction len with
    | zero =>
      intro n flag room
      have below : n ≤ 0x7F := by omega
      rw [varIntBytes, if_pos below, low_digit, div_eq_of_lt (lt_succ_of_le below), leadingDigits,
        nil_append]
    | succ len ih =>
      intro n flag room
      rw [varIntBytes, low_digit, high_digits]
      split
      next below =>
        rw [div_eq_of_lt (lt_succ_of_le below), leadingDigits, nil_append]
      next large =>
        obtain ⟨high, same⟩ := exists_eq_add_one.mpr (show 0 < n / 128 by omega)
        rw [same, Nat.add_sub_cancel, leadingDigits, ih 0x80 (by omega)]
  have room : n < 128 ^ ((width + 6) / 7) := by
    calc n < 2 ^ width := small
      _ ≤ 2 ^ (7 * ((width + 6) / 7)) := Nat.pow_le_pow_right Nat.two_pos (by omega)
      _ = 128 ^ ((width + 6) / 7) := pow_mul 2 7 _
  obtain ⟨len, sized⟩ := exists_eq_add_one.mpr (show 0 < (width + 6) / 7 by omega)
  rw [writeVarInt, sized, written 0 (sized ▸ room), UInt8.or_zero]

theorem exactFrom_written (pos : 0 < width) (small : n < 2 ^ width)
    : exactFrom 0 (writeVarInt width n ++ rest) = .ok (n, rest) := by
  rw [writeVarInt_eq pos small, append_assoc, exactFrom_leadingDigits,
    singleton_append, exactFrom_last (mod_lt _ (by decide)), div_add_mod']

/-- Every integer of the type is read back. -/
theorem reads_varInt (pos : 0 < width) (small : n < 2 ^ width)
    : Reads (readVarInt width) (writeVarInt width n) n := by
  intro rest
  have wrapped := readVarIntFrom_eq width 0 (writeVarInt width n ++ rest)
  rw [zero_mod] at wrapped
  rw [readVarInt, wrapped, exactFrom_written pos small]
  simp only [Except.map, mod_eq_of_lt small]

theorem getSizeOfVarInt_eq (n : Nat)
    : getSizeOfVarInt n = (leadingDigits (n / 128)).length + 1 := by
  fun_induction getSizeOfVarInt n with
  | case1 n below => rw [div_eq_of_lt (lt_succ_of_le below), leadingDigits, length_nil]
  | case2 n large ih =>
    rw [high_digits] at ih
    obtain ⟨high, same⟩ := exists_eq_add_one.mpr (show 0 < n / 128 by omega)
    rw [high_digits, ih, same, leadingDigits, length_append, Nat.add_sub_cancel, length_singleton]

theorem getSizeOfVarInt_mono (le : m ≤ n)
    : getSizeOfVarInt m ≤ getSizeOfVarInt n := by
  induction n using Nat.strongRecOn generalizing m with
  | ind n ih =>
    rw [getSizeOfVarInt.eq_1 m, getSizeOfVarInt.eq_1 n, high_digits, high_digits]
    split <;> split
    · exact le_rfl
    · exact le_add_left 1 _
    · omega
    · next large _ => exact succ_le_succ (ih (n / 128 - 1) (by omega) (by omega))

/-- The encodings of the unsigned 64-bit integers: `WriteVarInt` never runs over its ten bytes. -/
theorem varInt64_encoding (n : UInt64)
    : (writeVarInt 64 n.toNat).length = getSizeOfVarInt n.toNat
      ∧ getSizeOfVarInt n.toNat ≤ 10
      ∧ (∀ rest, readVarInt 64 (writeVarInt 64 n.toNat ++ rest) = .ok (n.toNat, rest))
      ∧ ∀ m : UInt64,
        (m ≠ n → ¬ writeVarInt 64 m.toNat <+: writeVarInt 64 n.toNat)
        ∧ (m ≤ n → (writeVarInt 64 m.toNat).length ≤ (writeVarInt 64 n.toNat).length) := by
  have reads (m : UInt64) := reads_varInt (by decide : 0 < 64) m.toNat_lt
  have sized (m : UInt64) : (writeVarInt 64 m.toNat).length = getSizeOfVarInt m.toNat := by
    rw [writeVarInt_eq (by decide) m.toNat_lt, getSizeOfVarInt_eq, length_append, length_singleton]
  refine ⟨sized n, ?_, reads n, fun m => ⟨fun distinct start => ?_, fun le => ?_⟩⟩
  · have largest : getSizeOfVarInt (2 ^ 64 - 1) = 10 := by
      simp [getSizeOfVarInt]
    exact largest ▸ getSizeOfVarInt_mono (le_sub_one_of_lt n.toNat_lt)
  · exact distinct (UInt64.toNat_inj.mp ((reads m).eq_of_isPrefix (reads n) start).1)
  · rw [sized, sized]
    exact getSizeOfVarInt_mono (UInt64.le_iff_toNat_le.mp le)

/-- What `ReadVarInt` accepts is what `WriteVarInt` writes if and only if the number that the
bytes encode is one of the type: one beyond is reduced, and nothing is reported.
-/
theorem readVarInt_canonical_iff {bytes : Bytes} (pos : 0 < width)
    (accepted : readVarInt width bytes = .ok (n, rest))
    : ∃ value, exactFrom 0 bytes = .ok (value, rest)
      ∧ n = value % 2 ^ width
      ∧ (bytes = writeVarInt width n ++ rest ↔ value < 2 ^ width) := by
  have wrapped := readVarIntFrom_eq width 0 bytes
  rw [zero_mod, ← readVarInt, accepted] at wrapped
  match run : exactFrom 0 bytes with
  | .error e =>
    rw [run] at wrapped
    cases wrapped
  | .ok (value, rest) =>
    rw [run] at wrapped
    cases wrapped
    have below := mod_lt value (Nat.two_pow_pos width)
    refine ⟨value, rfl, rfl, fun same => ?_, fun fits => ?_⟩
    · rw [same, exactFrom_written pos below] at run
      have kept := (Prod.mk.inj (Except.ok.inj run)).1
      rwa [← kept]
    · have digits := digits_of_exactFrom run
      rw [leadingDigits, nil_append] at digits
      rw [mod_eq_of_lt fits, writeVarInt_eq pos fits, digits, append_assoc, singleton_append]

theorem readVarInt_wraps
    : (readVarInt 32 [0x8E, 0xFE, 0xFE, 0xFF, 0x00] = .ok (0, [])
        ∧ readVarInt 32 (writeVarInt 32 0) = .ok (0, [])
        ∧ writeVarInt 32 0 = [0x00])
      ∧ readVarInt 64 [0x80, 0xFE, 0xFE, 0xFE, 0xFE, 0xFE, 0xFE, 0xFE, 0xFF, 0x00] = .ok (0, [])
      ∧ writeVarInt 64 0 = [0x00] := by
  decide

theorem readVarInt_canonical_iff_overlong
    : ∃ value, exactFrom 0 [0x8E, 0xFE, 0xFE, 0xFF, 0x00] = .ok (value, [])
      ∧ 0 = value % 2 ^ 32
      ∧ ([0x8E, 0xFE, 0xFE, 0xFF, 0x00] = writeVarInt 32 0 ++ [] ↔ value < 2 ^ 32) :=
  readVarInt_canonical_iff (by decide) rfl

end Resistance.Primitives

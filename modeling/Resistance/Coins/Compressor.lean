import Resistance.Primitives.VarInt
import Resistance.Consensus.Amount
import Resistance.Script.Script

/-! The compact encoding of outputs, from `compressor.h` and `compressor.cpp`: amounts without
their trailing zeros, and the common kinds of scripts by their hash or key.
-/

namespace Resistance.Coins

open List Primitives Script Consensus Lib.Codec Nat

/-- The loop of `CompressAmount`, for as many rounds as `e` has left up to 9. -/
def stripZeros : Nat → Nat → Nat → Nat × Nat
  | 0, n, e => (n, e)
  | rounds + 1, n, e => if n % 10 = 0 then stripZeros rounds (n / 10) (e + 1) else (n, e)

/-- `CompressAmount`, in 64 bits. -/
def compressAmount (n : Nat) : Nat :=
  if n = 0 then 0
  else
    let (n, e) := stripZeros 9 n 0
    if e < 9 then
      let d := n % 10
      let n := n / 10
      (1 + (n * 9 + d - 1) * 10 + e) % 2 ^ 64
    else (1 + (n - 1) * 10 + 9) % 2 ^ 64

/-- The loop of `DecompressAmount`. -/
def scaleUp : Nat → Nat → Nat
  | 0, n => n
  | e + 1, n => scaleUp e (n * 10 % 2 ^ 64)

/-- `DecompressAmount`, in 64 bits. -/
def decompressAmount (x : Nat) : Nat :=
  if x = 0 then 0
  else
    let x := x - 1
    let e := x % 10
    let x := x / 10
    let n := if e < 9 then
        let d := x % 9 + 1
        (x / 9 * 10 + d) % 2 ^ 64
      else (x + 1) % 2 ^ 64
    scaleUp e n

theorem stripZeros_spec (rounds n e : Nat)
    : ∃ m k, stripZeros rounds n e = (m, e + k) ∧ k ≤ rounds ∧ n = m * 10 ^ k
      ∧ (k < rounds → m % 10 ≠ 0) := by
  induction rounds generalizing n e with
  | zero => exact ⟨n, 0, rfl, le_refl _, by simp, nofun⟩
  | succ rounds ih =>
    rw [stripZeros]
    split
    next zero =>
      obtain ⟨m, k, run, bound, split, last⟩ := ih (n / 10) (e + 1)
      refine ⟨m, k + 1, by rw [run]; congr 1; omega, succ_le_succ bound, ?_, ?_⟩
      · rw [pow_succ, ← mul_assoc, ← split]
        omega
      · exact fun less => last (lt_of_succ_lt_succ less)
    next nonzero => exact ⟨n, 0, rfl, zero_le _, by simp, fun _ => nonzero⟩

/-- `CompressAmount` as long as its assertion holds and no operation leaves its range. -/
def compressAmountChecked (n : Nat) : Option Int :=
  if n = 0 then some 0
  else do
    let (n, e) := stripZeros 9 n 0
    if e < 9 then
      let d := n % 10
      guard (d ≥ 1 ∧ d ≤ 9)
      let n := n / 10
      let sum ← inUInt64 ((← inUInt64 (n * 9)) + d)
      let product ← inUInt64 ((← inUInt64 (sum - 1)) * 10)
      inUInt64 ((← inUInt64 (1 + product)) + e)
    else
      let product ← inUInt64 ((← inUInt64 (n - 1)) * 10)
      inUInt64 ((← inUInt64 (1 + product)) + 9)

def scaleUpChecked : Nat → Int → Option Int
  | 0, n => some n
  | e + 1, n => do scaleUpChecked e (← inUInt64 (n * 10))

/-- `DecompressAmount` as long as no operation leaves its range. -/
def decompressAmountChecked (x : Nat) : Option Int :=
  if x = 0 then some 0
  else do
    let x := x - 1
    let e := x % 10
    let x := x / 10
    let n ← if e < 9 then do
        let d := x % 9 + 1
        let x := x / 9
        inUInt64 ((← inUInt64 (x * 10)) + d)
      else inUInt64 (x + 1)
    scaleUpChecked e n

theorem scaleUp_eq {e n} (fits : n * 10 ^ e < 2 ^ 64)
    : scaleUp e n = n * 10 ^ e ∧ scaleUpChecked e n = some ((n * 10 ^ e : Nat) : Int) := by
  induction e generalizing n with
  | zero => simp [scaleUp, scaleUpChecked]
  | succ e ih =>
    have shifted : n * 10 * 10 ^ e = n * 10 ^ (e + 1) := by rw [pow_succ]; ring
    have small : n * 10 < 2 ^ 64 :=
      (Nat.le_mul_of_pos_right _ (Nat.pow_pos (by decide))).trans_lt (shifted ▸ fits)
    rw [scaleUp, mod_eq_of_lt small, scaleUpChecked, inUInt64_bind (by omega) (by omega), ← shifted]
    exact ih (shifted ▸ fits)

/-- Amounts up to `MAX_MONEY` are read back, and nothing overflows. -/
theorem compressAmount_exact {n} (money : n ≤ 12600000000000000)
    : compressAmount n < 2 ^ 64 ∧ compressAmountChecked n = some (compressAmount n : Int)
      ∧ decompressAmount (compressAmount n) = n
      ∧ decompressAmountChecked (compressAmount n) = some (n : Int) := by
  rcases Nat.eq_zero_or_pos n with rfl | pos
  · exact ⟨by decide, rfl, rfl, rfl⟩
  obtain ⟨m, k, run, bound, split, last⟩ := stripZeros_spec 9 n 0
  have shorter : m ≤ n := by
    rw [split]
    exact Nat.le_mul_of_pos_right _ (Nat.pow_pos (by decide))
  obtain ⟨scaled, scaledChecked⟩ := scaleUp_eq (show m * 10 ^ k < 2 ^ 64 by omega)
  rw [← split] at scaled scaledChecked
  rw [compressAmount, compressAmountChecked, if_neg pos.ne', if_neg pos.ne', run, zero_add]
  simp only
  rcases lt_or_ge k 9 with less | full
  · have digit := last less
    have small : 1 + (m / 10 * 9 + m % 10 - 1) * 10 + k < 2 ^ 64 := by omega
    have exponent : (1 + (m / 10 * 9 + m % 10 - 1) * 10 + k - 1) % 10 = k := by omega
    have rest : (1 + (m / 10 * 9 + m % 10 - 1) * 10 + k - 1) / 10
        = m / 10 * 9 + m % 10 - 1 := by omega
    have mantissa : ((m / 10 * 9 + m % 10 - 1) / 9 * 10
        + ((m / 10 * 9 + m % 10 - 1) % 9 + 1)) % 2 ^ 64 = m := by omega
    have asserted : m % 10 ≥ 1 ∧ m % 10 ≤ 9 := by omega
    rw [if_pos less, mod_eq_of_lt small, if_pos less, guard, if_pos asserted]
    refine ⟨small, ?_, ?_, ?_⟩
    · simp (disch := omega) only [inUInt64_bind, pure_bind]
      rw [inUInt64_eq (by omega) (by omega)]
      exact congrArg some (by omega)
    · rw [decompressAmount, if_neg (by omega)]
      simp only [exponent, rest, if_pos less, mantissa, scaled]
    · rw [decompressAmountChecked, if_neg (by omega)]
      simp (disch := omega) only [exponent, rest, if_pos less, inUInt64_bind]
      exact (congrArg (scaleUpChecked k) (by omega)).trans scaledChecked
  · obtain rfl : k = 9 := le_antisymm bound full
    have small : 1 + (m - 1) * 10 + 9 < 2 ^ 64 := by omega
    have exponent : (1 + (m - 1) * 10 + 9 - 1) % 10 = 9 := by omega
    have mantissa : ((1 + (m - 1) * 10 + 9 - 1) / 10 + 1) % 2 ^ 64 = m := by omega
    rw [if_neg (lt_irrefl 9), mod_eq_of_lt small, if_neg (lt_irrefl 9)]
    refine ⟨small, ?_, ?_, ?_⟩
    · simp (disch := omega) only [inUInt64_bind]
      rw [inUInt64_eq (by omega) (by omega)]
      exact congrArg some (by omega)
    · rw [decompressAmount, if_neg (by omega)]
      simp only [exponent, if_neg (lt_irrefl 9), mantissa, scaled]
    · rw [decompressAmountChecked, if_neg (by omega)]
      simp (disch := omega) only [exponent, if_neg (lt_irrefl 9), inUInt64_bind]
      exact (congrArg (scaleUpChecked 9) (by omega)).trans scaledChecked

/-- The amounts up to `MAX_MONEY`. -/
def amounts : Set Nat := {n | (n : Int) ≤ maxMoney.toInt}

/-- On the amounts, `DecompressAmount` is the inverse of `CompressAmount`. -/
theorem compressAmount_invOn
    : (∀ n ∈ amounts, compressAmountChecked n = some (compressAmount n : Int)
        ∧ decompressAmountChecked (compressAmount n) = some (n : Int))
      ∧ Set.InvOn decompressAmount compressAmount amounts (compressAmount '' amounts) := by
  have readBack (n : Nat) (inside : (n : Int) ≤ maxMoney.toInt) :=
    compressAmount_exact (n := n) (by rw [maxMoney_toInt] at inside; omega)
  have left : Set.LeftInvOn decompressAmount compressAmount amounts :=
    fun n inside => (readBack n inside).2.2.1
  exact ⟨fun n inside => ⟨(readBack n inside).2.1, (readBack n inside).2.2.2⟩, left,
    left.rightInvOn_image⟩

def opDup : UInt8 := 0x76
def opEqualverify : UInt8 := 0x88
def opChecksig : UInt8 := 0xac

def nSpecialScripts : Nat := 6

/-- `IsToKeyID`. -/
def isToKeyID (script : CScript) : Option Bytes :=
  if script.length = 25 ∧ script.take 3 = [opDup, opHash160, 20]
      ∧ script.drop 23 = [opEqualverify, opChecksig] then some ((script.drop 3).take 20)
  else none

/-- `IsToScriptID`. -/
def isToScriptID (script : CScript) : Option Bytes :=
  if script.length = 23 ∧ script.take 2 = [opHash160, 20] ∧ script.drop 22 = [opEqual] then
    some ((script.drop 2).take 20)
  else none

section Keys

-- `CPubKey::IsFullyValid` of an uncompressed key, and `CPubKey::Decompress`.
variable (isFullyValid : Bytes → Bool) (decompressKey : Bytes → Option Bytes)

/-- `IsToPubKey`. An uncompressed key that is not fully valid would not be compressible. -/
def isToPubKey (script : CScript) : Option Bytes :=
  if script.length = 35 ∧ script.take 1 = [33] ∧ script.drop 34 = [opChecksig]
      ∧ (script.getD 1 0 = 0x02 ∨ script.getD 1 0 = 0x03) then some ((script.drop 1).take 33)
  else if script.length = 67 ∧ script.take 1 = [65] ∧ script.drop 66 = [opChecksig]
      ∧ script.getD 1 0 = 0x04 then
    let pubkey := (script.drop 1).take 65
    if isFullyValid pubkey then some pubkey else none
  else none

def compress (script : CScript) : Option Bytes :=
  match isToKeyID script with
  | some keyID => some (0x00 :: keyID)
  | none =>
    match isToScriptID script with
    | some scriptID => some (0x01 :: scriptID)
    | none =>
      match isToPubKey isFullyValid script with
      | some pubkey =>
        let x := (pubkey.drop 1).take 32
        if pubkey.getD 0 0 = 0x02 ∨ pubkey.getD 0 0 = 0x03 then some (pubkey.getD 0 0 :: x)
        else if pubkey.getD 0 0 = 0x04 then
          some ((0x04 ||| (pubkey.getD 64 0 &&& 0x01)) :: x)
        else none
      | none => none

def getSpecialSize (nSize : Nat) : Nat :=
  if nSize = 0 ∨ nSize = 1 then 20
  else if nSize = 2 ∨ nSize = 3 ∨ nSize = 4 ∨ nSize = 5 then 32
  else 0

/-- `Decompress`: the script, or `none` where it returns `false`. -/
def decompress (nSize : Nat) (input : Bytes) : Option CScript :=
  match nSize with
  | 0x00 => some ([opDup, opHash160, 20] ++ input ++ [opEqualverify, opChecksig])
  | 0x01 => some ([opHash160, 20] ++ input ++ [opEqual])
  | 0x02 => some ([33, 0x02] ++ input ++ [opChecksig])
  | 0x03 => some ([33, 0x03] ++ input ++ [opChecksig])
  | 0x04 => (decompressKey (0x02 :: input)).map fun pubkey => [65] ++ pubkey ++ [opChecksig]
  | 0x05 => (decompressKey (0x03 :: input)).map fun pubkey => [65] ++ pubkey ++ [opChecksig]
  | _ => none

/-- `CScriptCompressor::Serialize`. -/
def serializeScript (script : CScript) : Bytes :=
  match compress isFullyValid script with
  | some compr => compr
  | none => writeVarInt 32 ((script.length + nSpecialScripts) % 2 ^ 32) ++ script

/-- `CFlatData` of a vector of `n` bytes. -/
def readBytes (n : Nat) : Reader String Bytes := do
  let bytes ← serReaddata8.array n
  pure bytes.toList

/-- `CBaseDataStream::ignore`; the argument is an `int`. -/
def ignoreBytes (nSize : Nat) : Reader String Unit := fun stream =>
  if 2 ^ 31 ≤ nSize then .error "CDataStream::ignore(): nSize negative"
  else if stream.length < nSize then .error "CBaseDataStream::ignore(): end of data"
  else .ok ((), stream.drop nSize)

/-- `CScriptCompressor::Unserialize` into an empty script, which stays as it is where
`Decompress` fails.
-/
def unserializeScript : Reader String CScript := do
  let nSize ← readVarInt 32
  if nSize < nSpecialScripts then do
    let vch ← readBytes (getSpecialSize nSize)
    pure ((decompress decompressKey nSize vch).getD [])
  else
    let nSize := nSize - nSpecialScripts
    if nSize > maxScriptSize then do
      -- Overly long script, replace with a short invalid one.
      ignoreBytes nSize
      pure [opReturn]
    else readBytes nSize

/-- `CTxOutCompressor`, writing. -/
def serializeTxOut (txout : CTxOut) : Bytes :=
  writeVarInt 64 (compressAmount txout.nValue.toUInt64.toNat)
    ++ serializeScript isFullyValid txout.scriptPubKey

/-- `CTxOutCompressor`, reading. -/
def unserializeTxOut : Reader String CTxOut := do
  let nVal ← readVarInt 64
  let scriptPubKey ← unserializeScript decompressKey
  pure { nValue := (UInt64.ofNat (decompressAmount nVal)).toInt64, scriptPubKey }

/-- Decompressing the compressed form of a fully valid key gives the key back. -/
def Inverts : Prop :=
  ∀ pubkey : Bytes, pubkey.length = 65 → pubkey.getD 0 0 = 0x04 → isFullyValid pubkey = true →
    decompressKey ((0x02 ||| (pubkey.getD 64 0 &&& 0x01)) :: (pubkey.drop 1).take 32)
      = some pubkey

variable {isFullyValid decompressKey}

/-- A list around a part of it. -/
theorem take_append_middle (l : Bytes) (a k : Nat)
    : l.take a ++ (l.drop a).take k ++ l.drop (a + k) = l := by
  rw [append_assoc, ← drop_drop, take_append_drop, take_append_drop]

variable {script : CScript}

theorem isToKeyID_some {keyID} (found : isToKeyID script = some keyID)
    : keyID.length = 20
      ∧ script = [opDup, opHash160, 20] ++ keyID ++ [opEqualverify, opChecksig] := by
  obtain ⟨⟨size, front, back⟩, ⟨⟩⟩ := Option.ite_none_right_eq_some.mp found
  refine ⟨by simp [size], ?_⟩
  rw [← front, ← back]
  exact (take_append_middle script 3 20).symm

theorem isToScriptID_some {scriptID} (found : isToScriptID script = some scriptID)
    : scriptID.length = 20 ∧ script = [opHash160, 20] ++ scriptID ++ [opEqual] := by
  obtain ⟨⟨size, front, back⟩, ⟨⟩⟩ := Option.ite_none_right_eq_some.mp found
  refine ⟨by simp [size], ?_⟩
  rw [← front, ← back]
  exact (take_append_middle script 2 20).symm

theorem isToPubKey_some {pubkey} (found : isToPubKey isFullyValid script = some pubkey)
    : pubkey.length = 33 ∧ (pubkey.getD 0 0 = 0x02 ∨ pubkey.getD 0 0 = 0x03)
        ∧ script = [33] ++ pubkey ++ [opChecksig]
      ∨ pubkey.length = 65 ∧ pubkey.getD 0 0 = 0x04 ∧ isFullyValid pubkey = true
        ∧ script = [65] ++ pubkey ++ [opChecksig] := by
  have second : ∀ k, 0 < k → ((script.drop 1).take k).getD 0 0 = script.getD 1 0 := by
    intro k pos
    simp [pos]
  unfold isToPubKey at found
  split at found
  next shape =>
    obtain ⟨size, front, back, parity⟩ := shape
    cases found
    refine .inl ⟨by simp [size], by rwa [second 33 (by decide)], ?_⟩
    rw [← front, ← back]
    exact (take_append_middle script 1 33).symm
  next =>
    split at found
    next shape =>
      obtain ⟨size, front, back, header⟩ := shape
      simp only at found
      split at found
      next valid =>
        cases found
        refine .inr ⟨by simp [size], by rwa [second 65 (by decide)], valid, ?_⟩
        rw [← front, ← back]
        exact (take_append_middle script 1 65).symm
      next => cases found
    next => cases found

theorem cons_of_length {bytes : Bytes} {n : Nat} (size : bytes.length = n + 1)
    : bytes = bytes.getD 0 0 :: (bytes.drop 1).take n := by
  cases bytes with
  | nil => cases size
  | cons first rest =>
    rw [getD_cons_zero, drop_succ_cons, drop_zero,
      take_of_length_le (le_of_eq (succ_injective size))]

theorem low_bit (b : UInt8) : b &&& 0x01 = 0 ∨ b &&& 0x01 = 1 := by
  have low : (b &&& 0x01).toNat = b.toNat % 2 := by
    rw [UInt8.toNat_and]
    exact and_one_is_mod b.toNat
  rw [← UInt8.toNat_inj, ← UInt8.toNat_inj, low]
  exact mod_two_eq_zero_or_one b.toNat

/-- What `Compress` writes: the number of a special script, and what `Decompress` makes the
script of.
-/
theorem compress_some (inverts : Inverts isFullyValid decompressKey) {compr : Bytes}
    (found : compress isFullyValid script = some compr)
    : ∃ (nSize : UInt8) (payload : Bytes), compr = nSize :: payload
      ∧ nSize.toNat < nSpecialScripts ∧ payload.length = getSpecialSize nSize.toNat
      ∧ decompress decompressKey nSize.toNat payload = some script := by
  unfold compress at found
  split at found
  next keyID key =>
    cases found
    obtain ⟨size, shape⟩ := isToKeyID_some key
    exact ⟨0x00, keyID, rfl, by decide, size, by rw [shape]; rfl⟩
  next =>
    split at found
    next scriptID hash =>
      cases found
      obtain ⟨size, shape⟩ := isToScriptID_some hash
      exact ⟨0x01, scriptID, rfl, by decide, size, by rw [shape]; rfl⟩
    next =>
      split at found
      next pubkey pub =>
        rcases isToPubKey_some pub with ⟨size, parity, shape⟩ | ⟨size, header, valid, shape⟩
        · simp only [if_pos parity] at found
          cases found
          have parts := cons_of_length size
          have short : ((pubkey.drop 1).take 32).length = 32 := by simp [size]
          rcases parity with header | header
          all_goals
            rw [header] at parts ⊢
            refine ⟨_, _, rfl, by decide, short, ?_⟩
            rw [shape, congrArg ([33] ++ ·) parts]
            rfl
        · rw [header, if_neg (by decide), if_pos rfl] at found
          cases found
          have key := inverts pubkey size header valid
          have short : ((pubkey.drop 1).take 32).length = 32 := by simp [size]
          rcases low_bit (pubkey.getD 64 0) with parity | parity
          all_goals
            rw [parity] at key ⊢
            refine ⟨_, _, rfl, by decide, short, ?_⟩
            exact (congrArg (Option.map _) key).trans (by rw [shape]; rfl)
      next => cases found

/-- A single byte below 128 is a variable-length integer. -/
theorem reads_varInt_byte {b} (small : b.toNat < 128)
    : Reads (readVarInt 32) [b] b.toNat := by
  have width : 0 < 32 := by decide
  have fits : b.toNat < 2 ^ 32 := by omega
  have read := reads_varInt width fits
  rwa [writeVarInt_eq width fits, div_eq_of_lt small, mod_eq_of_lt small, UInt8.ofNat_toNat,
    leadingDigits, nil_append] at read

theorem reads_bytes (bytes : Bytes) : Reads (readBytes bytes.length) bytes bytes := by
  have read : Reads (serReaddata8.array bytes.length) (bytes.flatMap serWritedata8)
      (⟨bytes, rfl⟩ : List.Vector UInt8 bytes.length) :=
    Reads.array ⟨bytes, rfl⟩ fun b _ => Reads.byte endOfData b
  have flat : bytes.flatMap serWritedata8 = bytes := flatMap_singleton' bytes
  rw [flat] at read
  exact read.map

/-- A script of at most `MAX_SCRIPT_SIZE` bytes is read back. -/
theorem reads_script (inverts : Inverts isFullyValid decompressKey)
    (short : script.length ≤ maxScriptSize)
    : Reads (unserializeScript decompressKey) (serializeScript isFullyValid script) script := by
  unfold unserializeScript serializeScript
  cases special : compress isFullyValid script with
  | some compr =>
    obtain ⟨nSize, payload, rfl, small, size, restored⟩ := compress_some inverts special
    refine (reads_varInt_byte (b := nSize) (small.trans (by decide))).bind ?_
    rw [if_pos small, ← size]
    have read := (reads_bytes payload).map
      (f := fun vch => (decompress decompressKey nSize.toNat vch).getD [])
    rwa [restored, Option.getD_some] at read
  | none =>
    have bound : script.length ≤ 10000 := short
    have whole : (script.length + nSpecialScripts) % 2 ^ 32 = script.length + nSpecialScripts :=
      mod_eq_of_lt (by unfold nSpecialScripts; omega)
    rw [whole]
    refine (reads_varInt (by decide) (by unfold nSpecialScripts; omega)).bind ?_
    rw [if_neg (by omega), Nat.add_sub_cancel]
    simp only [if_neg (not_lt.mpr short)]
    exact reads_bytes script

/-- The size code of the serialization tells the special scripts from the others. -/
theorem serializeScript_code (inverts : Inverts isFullyValid decompressKey)
    (short : script.length ≤ maxScriptSize)
    : ∃ nSize tail, readVarInt 32 (serializeScript isFullyValid script) = .ok (nSize, tail)
      ∧ (nSize < nSpecialScripts ↔ (compress isFullyValid script).isSome) := by
  unfold serializeScript
  cases special : compress isFullyValid script with
  | some compr =>
    obtain ⟨nSize, payload, rfl, small, -⟩ := compress_some inverts special
    exact ⟨nSize.toNat, payload, reads_varInt_byte (small.trans (by decide)) payload, by simpa⟩
  | none =>
    have bound : script.length ≤ 10000 := short
    have fits : (script.length + nSpecialScripts) % 2 ^ 32 < 2 ^ 32 := mod_lt _ (by decide)
    refine ⟨_, script, reads_varInt (by decide) fits script, ?_⟩
    simp [nSpecialScripts]
    omega

/-- A script of at most `MAX_SCRIPT_SIZE` bytes comes back, whatever follows it, and a script of
the generic form is not taken for a special one.
-/
theorem script_compression (inverts : Inverts isFullyValid decompressKey)
    (short : script.length ≤ maxScriptSize)
    : (∀ rest, unserializeScript decompressKey (serializeScript isFullyValid script ++ rest)
          = .ok (script, rest))
      ∧ ∃ nSize tail, readVarInt 32 (serializeScript isFullyValid script) = .ok (nSize, tail)
        ∧ (nSize < nSpecialScripts ↔ (compress isFullyValid script).isSome) :=
  ⟨reads_script inverts short, serializeScript_code inverts short⟩

def oneKey : Bytes := 0x04 :: List.replicate 64 1

def decompressOne (pubkey : Bytes) : Option Bytes :=
  if pubkey = 0x03 :: List.replicate 32 1 then some oneKey else none

theorem inverts_decompressOne : Inverts (· == oneKey) decompressOne := by
  intro pubkey _ _ valid
  rw [eq_of_beq valid]
  decide

def payToOne : Bytes := [65] ++ oneKey ++ [opChecksig]

theorem script_compression_payToOne
    : (∀ rest, unserializeScript decompressOne (serializeScript (· == oneKey) payToOne ++ rest)
          = .ok (payToOne, rest))
      ∧ ∃ nSize tail, readVarInt 32 (serializeScript (· == oneKey) payToOne) = .ok (nSize, tail)
        ∧ nSize < nSpecialScripts := by
  have short : payToOne.length ≤ maxScriptSize := by decide
  obtain ⟨reads, nSize, tail, code, special⟩ := script_compression inverts_decompressOne short
  exact ⟨reads, nSize, tail, code, special.mpr (by decide)⟩

/-- An unspent output is read back. -/
theorem reads_txOut (inverts : Inverts isFullyValid decompressKey) {txout}
    (money : moneyRange txout.nValue = true) (short : txout.scriptPubKey.length ≤ maxScriptSize)
    : Reads (unserializeTxOut decompressKey) (serializeTxOut isFullyValid txout) txout := by
  obtain ⟨low, high⟩ := moneyRange_iff.mp money
  rw [maxMoney_toInt] at high
  have amount : txout.nValue.toUInt64.toNat ≤ 12600000000000000 := by
    rw [Int64.toNat_toUInt64_of_le (Int64.le_iff_toInt_le.mpr low), Int64.toNatClampNeg]
    omega
  obtain ⟨fits, -, restored, -⟩ := compressAmount_exact amount
  refine (reads_varInt (by decide) fits).bind ?_
  rw [restored, UInt64.ofNat_toNat, Int64.toInt64_toUInt64]
  exact (reads_script inverts short).map

end Keys

end Resistance.Coins

import Resistance.Coins.Encoding

/-! What `CCoins` writes to the coins database is read back as the same coins, as long as the
32-bit index of `CalcMaskSize` can pass the last output.
-/

namespace Resistance.Coins

open List Primitives Consensus Script Lib.Codec UInt32 Nat
open Resistance.Primitives.CPartialMerkleTree (packByte packByte_bit)
open CCoins

variable {vout : List CTxOut}

theorem packByte_eq_zero : ∀ bits : Fin 8 → Bool, packByte bits = 0 ↔ ∀ i, bits i = false := by
  decide +kernel

variable {b count : Nat} {fCoinBase fFirst fSecond : Bool} {coins : CCoins}

theorem chAvail_eq_zero
    : chAvail vout b = 0 ↔ ∀ i < 8, available vout (2 + b * 8 + i) = false := by
  rw [chAvail, packByte_eq_zero]
  exact Fin.forall_iff

theorem index_toNat {i} (small : 2 + b * 8 + i < 2 ^ 32)
    : (2 + ofNat b * 8 + ofNat i).toNat = 2 + b * 8 + i := by
  simp only [UInt32.toNat_add, UInt32.toNat_mul, toNat_ofNat', reduceToNat]
  omega

/-- What `CalcMaskSize` knows after the first `b` bytes of the mask: all of them are zero from
`last` on, and `count` of them are not zero.
-/
structure MaskUpTo (vout : List CTxOut) (b last count : Nat) : Prop where
  within : last ≤ b
  zeros : ∀ j, last ≤ j → j < b → chAvail vout j = 0
  ends : ∀ j, last = j + 1 → chAvail vout j ≠ 0
  counted : count = (range b).countP (chAvail vout · != 0)

namespace MaskUpTo

variable {b last count : Nat}

theorem start : MaskUpTo vout 0 0 0 where
  within := le_refl 0
  zeros := fun _ _ below => nomatch below
  ends := nofun
  counted := rfl

section

variable (mask : MaskUpTo vout b last count)
include mask

theorem skip (zero : chAvail vout b = 0)
    : MaskUpTo vout (b + 1) last count where
  within := le_succ_of_le mask.within
  zeros := by
    intro j from_last below
    rcases Nat.lt_succ_iff_lt_or_eq.mp below with earlier | rfl
    · exact mask.zeros j from_last earlier
    · exact zero
  ends := mask.ends
  counted := by simp [range_succ, zero, ← mask.counted]

theorem use (used : chAvail vout b ≠ 0)
    : MaskUpTo vout (b + 1) (b + 1) (count + 1) where
  within := le_refl _
  zeros := by
    omega
  ends := by
    intro j same
    cases same
    exact used
  counted := by simp [range_succ, used, ← mask.counted]

/-- All bytes that are not zero are among the first `last`. -/
theorem countP_last
    : count = ((range last).map (chAvail vout)).countP (· != 0) := by
  obtain ⟨more, rfl⟩ := Nat.exists_eq_add_of_le mask.within
  have none : ((range more).map (last + ·)).countP (chAvail vout · != 0) = 0 := by
    rw [countP_eq_zero]
    intro j mem
    obtain ⟨k, below, rfl⟩ := mem_map.mp mem
    have zero := mask.zeros (last + k) (le_add_right _ _)
      (Nat.add_lt_add_left (mem_range.mp below) last)
    simp [zero]
  rw [mask.counted, range_add, countP_append, none, countP_map]
  rfl

theorem count_le : count ≤ b := by
  rw [mask.counted]
  exact countP_le_length.trans_eq (length_range)

end

end MaskUpTo

/-- One round: the loop stops behind the last output, skips a byte or uses it. -/
theorem maskLoop_round {fuel last} (going : 0 < fuel) (bound : b < 2 ^ 29)
    (few : vout.length ≤ 2 ^ 32 - 6)
    : maskLoop vout fuel (ofNat b) (ofNat last) (ofNat count)
      = if vout.length ≤ 2 + b * 8 then some (ofNat last, ofNat count)
        else if chAvail vout b = 0 then
          maskLoop vout (fuel - 1) (ofNat (b + 1)) (ofNat last) (ofNat count)
        else
          maskLoop vout (fuel - 1) (ofNat (b + 1)) (ofNat (b + 1)) (ofNat (count + 1)) := by
  obtain ⟨fuel, rfl⟩ := exists_eq_succ_of_ne_zero going.ne'
  have first : (2 + ofNat b * 8).toNat = 2 + b * 8 := by
    simpa using index_toNat (i := 0) (by omega)
  rw [maskLoop, first]
  by_cases past : vout.length ≤ 2 + b * 8
  · rw [if_pos past, if_neg (not_lt.mpr past)]
  rw [if_neg past, if_pos (not_le.mp past)]
  have zero : ((range 8).all fun i =>
      ! available vout (2 + ofNat b * 8 + ofNat i).toNat) = true
      ↔ chAvail vout b = 0 := by
    rw [chAvail_eq_zero, all_eq_true]
    refine forall_congr' fun i => ?_
    rw [mem_range, Bool.not_eq_true']
    refine imp_congr_right fun small => ?_
    rw [index_toNat (by omega)]
  simp only [zero, ← UInt32.ofNat_one, ← ofNat_add, Nat.succ_sub_one]

/-- The loop ends with the mask of all outputs, if the index can pass the last of them. -/
theorem maskLoop_eq (few : vout.length ≤ 2 ^ 32 - 6) {rounds last} (bound : b + rounds + 1 = 2 ^ 29)
    (mask : MaskUpTo vout b last count)
    : ∃ stop last' count', MaskUpTo vout stop last' count' ∧ stop < 2 ^ 29
      ∧ vout.length ≤ 2 + stop * 8
      ∧ ∀ fuel, rounds < fuel
        → maskLoop vout fuel (ofNat b) (ofNat last) (ofNat count)
          = some (ofNat last', ofNat count') := by
  induction rounds generalizing b last count with
  | zero =>
    refine ⟨b, last, count, mask, by omega, by omega, fun fuel enough => ?_⟩
    rw [maskLoop_round enough (by omega) few, if_pos (by omega)]
  | succ rounds ih =>
    by_cases past : vout.length ≤ 2 + b * 8
    · refine ⟨b, last, count, mask, by omega, past, fun fuel enough => ?_⟩
      rw [maskLoop_round (by omega) (by omega) few, if_pos past]
    by_cases zero : chAvail vout b = 0
    · obtain ⟨stop, last', count', result, small, all, run⟩ := ih (by omega) (mask.skip zero)
      refine ⟨stop, last', count', result, small, all, fun fuel enough => ?_⟩
      rw [maskLoop_round (by omega) (by omega) few, if_neg past, if_pos zero]
      exact run _ (by omega)
    · obtain ⟨stop, last', count', result, small, all, run⟩ := ih (by omega) (mask.use zero)
      refine ⟨stop, last', count', result, small, all, fun fuel enough => ?_⟩
      rw [maskLoop_round (by omega) (by omega) few, if_neg past, if_neg zero]
      exact run _ (by omega)

/-- With more outputs the index wraps around before it has passed them all, for ever. -/
theorem maskLoop_unfinished (many : 2 ^ 32 - 6 < vout.length) (fuel : Nat) (b last count : UInt32)
    : maskLoop vout fuel b last count = none := by
  induction fuel generalizing b last count with
  | zero => rfl
  | succ fuel ih =>
    have inside : (2 + b * 8).toNat < vout.length := by
      simp only [UInt32.toNat_add, UInt32.toNat_mul, reduceToNat]
      omega
    simp only [maskLoop, if_pos inside, ih, ite_self]

theorem reads_mask (bytes : Bytes) (ends : bytes.getLast? ≠ some 0)
    : Reads (readMask (bytes.countP (· != 0))) bytes (bytes.flatMap flags) := by
  intro rest
  induction bytes with
  | nil => simp [readMask]
  | cons byte bytes ih =>
    cases bytes with
    | nil =>
      have used : byte ≠ 0 := by simpa using ends
      simp [readMask, used]
    | cons next bytes =>
      have read := ih (by simpa using ends)
      by_cases zero : byte = 0
      · obtain ⟨last, found⟩ : ∃ last, (next :: bytes).getLast? = some last :=
          ⟨_, getLast?_eq_some_getLast (cons_ne_nil next bytes)⟩
        have pos : 0 < (next :: bytes).countP (· != 0) := by
          refine countP_pos_iff.mpr ⟨last, mem_of_getLast? found, ?_⟩
          rw [getLast?_cons_cons, found] at ends
          simpa using ends
        obtain ⟨left, counted⟩ := exists_eq_succ_of_ne_zero pos.ne'
        rw [counted] at read
        have same : (byte :: next :: bytes).countP (· != 0) = left + 1 := by
          rw [countP_cons_of_neg (by simpa using zero), counted]
        rw [same, cons_append, readMask, if_neg (not_not.mpr zero), read]
        rfl
      · rw [countP_cons_of_pos (by simpa using zero), cons_append, readMask, if_pos zero, read]
        rfl

theorem flags_chAvail (b : Nat)
    : flags (chAvail vout b) = (range 8).map fun i => available vout (2 + b * 8 + i) := by
  apply map_congr_left
  intro p mem
  exact packByte_bit _ ⟨p, mem_range.mp mem⟩

theorem flatMap_flags (last : Nat)
    : ((range last).map (chAvail vout)).flatMap flags
      = (range (last * 8)).map fun j => available vout (2 + j) := by
  induction last with
  | zero => rfl
  | succ last ih =>
    rw [range_succ, map_append, flatMap_append, ih, succ_mul, range_add]
    simp [flags_chAvail, add_assoc]

/-- The outputs followed by null ones, up to a whole number of bytes of the mask. -/
def padded (vout : List CTxOut) (pad : Nat) : List CTxOut :=
  vout ++ replicate pad ({} : CTxOut)

theorem map_available (vout : List CTxOut) (pad : Nat)
    : (range (vout.length + pad)).map (available vout)
      = (padded vout pad).map (! ·.isNull) := by
  apply ext_getElem?
  intro i
  simp only [getElem?_map, padded]
  rcases lt_or_ge i vout.length with inside | past
  · simp [getElem?_append_left inside, getElem?_range (Nat.lt_add_right pad inside),
      inside, available]
  rcases lt_or_ge i (vout.length + pad) with padded | behind
  · have there : i - vout.length < pad := by omega
    simp [getElem?_append_right past, getElem?_range padded, past, there, CTxOut.isNull, available]
  · simp [behind]

section Keys

variable {isFullyValid : Bytes → Bool} {decompressKey : Bytes → Option Bytes}

theorem reads_txOuts {outputs} (each : ∀ txout ∈ outputs, txout = {}
      ∨ txout.isNull = false
        ∧ Reads (unserializeTxOut decompressKey) (serializeTxOut isFullyValid txout) txout)
    : Reads (readTxOuts decompressKey (outputs.map (! ·.isNull)))
        ((outputs.filter (! ·.isNull)).flatMap (serializeTxOut isFullyValid)) outputs := by
  induction outputs with
  | nil => exact Reads.pure _
  | cons txout outputs ih =>
    rw [forall_mem_cons] at each
    have rest := ih each.2
    rcases each.1 with rfl | ⟨unspent, read⟩
    · exact rest.map
    · simp only [map_cons, filter_cons, unspent]
      exact read.bind rest.map

end Keys

theorem headerCode_toNat (small : count < 2 ^ 29)
    (unspent : (fFirst || fSecond) = false → 0 < count)
    : (headerCode fCoinBase fFirst fSecond (ofNat count)).toNat
      = 8 * (count - if fFirst || fSecond then 0 else 1)
        + (fCoinBase.toNat + 2 * fFirst.toNat + 4 * fSecond.toNat) := by
  cases fFirst <;> cases fSecond <;> cases fCoinBase <;>
    simp [headerCode, UInt32.toNat_sub] at unspent ⊢ <;> omega

/-- The flags of the header code are its three low bits. -/
theorem and_flag (m low : Nat) {flag} (within : 7 &&& flag = flag)
    : (8 * m + low) &&& flag = low &&& flag := by
  have lowBits : ∀ n, n &&& 7 = n % 8 := fun n => and_two_pow_sub_one_eq_mod n 3
  rw [← within, ← Nat.and_assoc, ← Nat.and_assoc, lowBits, lowBits]
  congr 1
  omega

/-- What `Unserialize` takes from the header code is what `Serialize` put there. -/
theorem headerCode_decode (small : count < 2 ^ 29)
    (unspent : (fFirst || fSecond) = false → 0 < count) {nCode}
    (code : (headerCode fCoinBase fFirst fSecond (ofNat count)).toNat = nCode)
    : (nCode &&& 1 != 0) = fCoinBase ∧ (nCode &&& 2 != 0) = fFirst
      ∧ (nCode &&& 4 != 0) = fSecond
      ∧ nCode / 8 + (if nCode &&& 6 ≠ 0 then 0 else 1) = count := by
  rw [headerCode_toNat small unspent] at code
  subst code
  rw [and_flag _ _ rfl, and_flag _ _ rfl, and_flag _ _ rfl, and_flag _ _ rfl]
  cases fFirst <;> cases fSecond <;> cases fCoinBase <;> simp at unspent ⊢ <;> omega

theorem reads_varIntSigned {n} (nonneg : 0 ≤ n)
    : Reads readVarIntSigned (writeVarIntSigned n) n := by
  have read : Reads (readVarInt 32) (writeVarInt 32 n.toUInt32.toNat) n.toUInt32.toNat :=
    reads_varInt (by decide) n.toUInt32.toNat_lt
  have signed : Reads readVarIntSigned (writeVarInt 32 n.toUInt32.toNat)
      (ofNat n.toUInt32.toNat).toInt32 := read.map
  rw [UInt32.ofNat_toNat] at signed
  rwa [writeVarIntSigned, if_neg (Int32.not_lt.mpr nonneg)]

/-- The coins the database holds: unspent outputs are in the range of money and have scripts
that can be executed, spent ones are null.
-/
structure Encodable (coins : CCoins) : Prop where
  unpruned : coins.isPruned = false
  clean : coins.Clean
  version : 0 ≤ coins.nVersion
  height : 0 ≤ coins.nHeight ∧ coins.nHeight < 2 ^ 31
  outputs : ∀ txout ∈ coins.vout, txout = {}
    ∨ moneyRange txout.nValue = true ∧ txout.scriptPubKey.length ≤ maxScriptSize

theorem Encodable.available_last (encodable : Encodable coins)
    : 0 < coins.vout.length ∧ available coins.vout (coins.vout.length - 1) = true := by
  have nonempty : coins.vout ≠ [] := by
    rw [Ne, encodable.clean.vout_eq_nil_iff, encodable.unpruned]
    exact Bool.false_ne_true
  have kept : coins.vout.rdropWhile CTxOut.isNull = coins.vout :=
    congrArg CCoins.vout encodable.clean
  have unspent := rdropWhile_eq_self_iff.mp kept nonempty
  refine ⟨length_pos_of_ne_nil nonempty, ?_⟩
  rw [available, ← getLast?_eq_getElem?, getLast?_eq_some_getLast nonempty]
  simpa using unspent

section

variable {stop last count : Nat} (mask : MaskUpTo vout stop last count)
include mask

/-- The used bytes of the mask reach to the last output. -/
theorem MaskUpTo.covers (all : vout.length ≤ 2 + stop * 8)
    (unspent : available vout (vout.length - 1) = true)
    : vout.length ≤ 2 + last * 8 := by
  by_contra longer
  have zero := mask.zeros ((vout.length - 3) / 8) (by omega) (by omega)
  have spent := chAvail_eq_zero.mp zero ((vout.length - 3) % 8) (mod_lt _ (by decide))
  rw [show 2 + (vout.length - 3) / 8 * 8 + (vout.length - 3) % 8 = vout.length - 1 by omega,
    unspent] at spent
  cases spent

/-- If neither of the first two outputs is unspent, a byte of the mask is used. -/
theorem MaskUpTo.count_pos (covered : vout.length ≤ 2 + last * 8) (nonempty : 0 < vout.length)
    (unspent : available vout (vout.length - 1) = true)
    (spent : (available vout 0 || available vout 1) = false)
    : 0 < count := by
  rw [Bool.or_eq_false_iff] at spent
  cases last with
  | zero =>
    have position : vout.length - 1 = 0 ∨ vout.length - 1 = 1 := by omega
    rcases position with first | second
    · rw [first, spent.1] at unspent
      cases unspent
    · rw [second, spent.2] at unspent
      cases unspent
  | succ last =>
    rw [mask.countP_last, countP_pos_iff]
    refine ⟨chAvail vout last, ?_, by simpa using mask.ends last rfl⟩
    exact mem_map_of_mem (mem_range.mpr (lt_succ_self last))

theorem MaskUpTo.getLast?_ne
    : ((range last).map (chAvail vout)).getLast? ≠ some 0 := by
  cases last with
  | zero => simp
  | succ last => simpa [range_succ] using mask.ends last rfl

end

theorem rdropWhile_padding {pad} (kept : vout.rdropWhile CTxOut.isNull = vout)
    : (padded vout pad).rdropWhile CTxOut.isNull = vout := by
  induction pad with
  | zero => simpa [padded] using kept
  | succ pad ih =>
    rw [padded, replicate_succ', ← append_assoc, rdropWhile_concat_pos _ _ _ rfl]
    exact ih

theorem Encodable.reads_height (encodable : Encodable coins)
    : ∃ nHeight : Int32, nHeight.toInt = coins.nHeight
      ∧ Reads readVarIntSigned (writeVarIntSigned (Int32.ofInt coins.nHeight)) nHeight := by
  obtain ⟨nonneg, small⟩ := encodable.height
  have same : (Int32.ofInt coins.nHeight).toInt = coins.nHeight :=
    Int32.toInt_ofInt_of_le (Int.le_trans (by decide) nonneg) small
  refine ⟨Int32.ofInt coins.nHeight, same, reads_varIntSigned ?_⟩
  rw [Int32.le_iff_toInt_le, same]
  exact nonneg

section Keys

variable {isFullyValid : Bytes → Bool} {decompressKey : Bytes → Option Bytes}

theorem Encodable.reads_outputs (inverts : Inverts isFullyValid decompressKey) {coins}
    (encodable : Encodable coins) (pad : Nat)
    : Reads (readTxOuts decompressKey
          ((range (coins.vout.length + pad)).map (available coins.vout)))
        ((coins.vout.filter (! ·.isNull)).flatMap (serializeTxOut isFullyValid))
        (padded coins.vout pad) := by
  have nothing : (replicate pad ({} : CTxOut)).filter (! ·.isNull) = [] := by
    simp [CTxOut.isNull]
  have same : coins.vout.filter (! ·.isNull) = (padded coins.vout pad).filter (! ·.isNull) := by
    rw [padded, filter_append, nothing, append_nil]
  rw [map_available, same]
  apply reads_txOuts
  intro txout mem
  rcases mem_append.mp mem with original | added
  · rcases encodable.outputs txout original with spent | ⟨money, short⟩
    · exact .inl spent
    refine .inr ⟨?_, reads_txOut inverts money short⟩
    rw [Bool.eq_false_iff]
    intro null
    rw [eq_of_beq null] at money
    exact absurd money (by decide)
  · exact .inl (eq_of_mem_replicate added)

/-- The bytes of coins, by the size of the mask. -/
def written (isFullyValid : Bytes → Bool) (coins : CCoins) (last count : Nat) : Bytes :=
  writeVarIntSigned coins.nVersion
    ++ (writeVarInt 32 (headerCode coins.fCoinBase (available coins.vout 0)
      (available coins.vout 1) (ofNat count)).toNat
    ++ ((range last).map (chAvail coins.vout)
    ++ ((coins.vout.filter (! ·.isNull)).flatMap (serializeTxOut isFullyValid)
    ++ writeVarIntSigned (Int32.ofInt coins.nHeight))))

section Written

variable {coins : CCoins} {stop last count : Nat} (mask : MaskUpTo coins.vout stop last count)
  (small : stop < 2 ^ 29)
  (used : (available coins.vout 0 || available coins.vout 1) = false → 0 < count)
include mask small used

theorem serialize_eq {fuel}
    (computed : calcMaskSize fuel coins.vout = some (ofNat last, ofNat count))
    : serialize isFullyValid fuel coins = .ok (written isFullyValid coins last count) := by
  have within := mask.within
  have counted := mask.count_le
  have size : (ofNat last).toNat = last := by
    rw [toNat_ofNat']
    omega
  simp only [serialize, computed, size]
  rw [if_neg]
  · simp only [append_assoc, written]
  intro pruned
  rw [Bool.not_eq_true', Bool.or_eq_false_iff, bne_eq_false_iff_eq] at pruned
  have zero := congrArg toNat pruned.2
  have pos := used pruned.1
  simp only [toNat_ofNat', reduceToNat] at zero
  omega

theorem Encodable.reads_written (inverts : Inverts isFullyValid decompressKey)
    (encodable : Encodable coins) (covered : coins.vout.length ≤ 2 + last * 8)
    : Reads (unserialize decompressKey) (written isFullyValid coins last count) coins := by
  unfold written
  generalize code : (headerCode coins.fCoinBase (available coins.vout 0)
    (available coins.vout 1) (ofNat count)).toNat = nCode
  obtain ⟨coinBase, first, second, maskCode⟩ :=
    headerCode_decode (mask.count_le.trans_lt small) used code
  obtain ⟨pad, total⟩ := Nat.exists_eq_add_of_le covered
  have flagsRead := reads_mask _ mask.getLast?_ne
  rw [← mask.countP_last, flatMap_flags] at flagsRead
  have outputs := encodable.reads_outputs inverts pad
  rw [← total, range_add, map_append, map_map] at outputs
  have trimmed : cleanup
      ⟨coins.fCoinBase, padded coins.vout pad, coins.nHeight, coins.nVersion⟩ = coins := by
    rw [cleanup, rdropWhile_padding (congrArg CCoins.vout encodable.clean)]
  obtain ⟨nHeight, toInt, height⟩ := encodable.reads_height
  have last := height.map (f := fun nHeight => cleanup
    ⟨coins.fCoinBase, padded coins.vout pad, nHeight.toInt, coins.nVersion⟩)
  rw [toInt, trimmed] at last
  refine (reads_varIntSigned encodable.version).bind (Reads.bind
    (reads_varInt (by decide) (code ▸ toNat_lt _)) ?_)
  simp only [maskCode, coinBase, first, second]
  exact flagsRead.bind (outputs.bind last)

end Written

/-- Coins with at most `2 ^ 32 - 6` outputs are written in finitely many steps, and reading
takes exactly the bytes and gives the coins back.
-/
theorem reads_coins (inverts : Inverts isFullyValid decompressKey) {coins : CCoins}
    (encodable : Encodable coins) (few : coins.vout.length ≤ 2 ^ 32 - 6)
    : ∃ bytes, (∀ fuel, 2 ^ 29 ≤ fuel → serialize isFullyValid fuel coins = .ok bytes)
      ∧ Reads (unserialize decompressKey) bytes coins := by
  obtain ⟨stop, last, count, mask, small, all, run⟩ :=
    maskLoop_eq few (by decide : 0 + (2 ^ 29 - 1) + 1 = 2 ^ 29) MaskUpTo.start
  obtain ⟨nonempty, unspent⟩ := encodable.available_last
  have covered := mask.covers all unspent
  have used := mask.count_pos covered nonempty unspent
  refine ⟨_, ?_, encodable.reads_written mask small used inverts covered⟩
  intro fuel enough
  exact serialize_eq mask small used (run fuel (by omega))

end Keys

/-- A coinbase of which only the last of twenty outputs is unspent, paid to a key. -/
def sparseCoins : CCoins where
  fCoinBase := true
  vout := replicate 19 {}
    ++ [{ nValue := 5000000000, scriptPubKey := payToOne }]
  nHeight := 120000
  nVersion := 4

theorem reads_sparseCoins
    : ∃ bytes, (∀ fuel, 2 ^ 29 ≤ fuel → serialize (· == oneKey) fuel sparseCoins = .ok bytes)
      ∧ Reads (unserialize decompressOne) bytes sparseCoins :=
  reads_coins inverts_decompressOne
    ⟨by decide, by unfold Clean; decide, by decide, by decide, by decide⟩ (by decide)

theorem encodable_replicate {n} (pos : 0 < n)
    : Encodable { vout := replicate n { nValue := 0 } } where
  unpruned := by simp [isPruned, CTxOut.isNull, pos.ne']
  clean := by
    rw [Clean, cleanup]
    simp [CTxOut.isNull]
  version := Int32.le_refl 0
  height := ⟨Int.le_refl 0, Int.pow_pos (by decide)⟩
  outputs := by
    intro txout mem
    rw [eq_of_mem_replicate mem]
    exact .inr ⟨by decide, by decide⟩

/-- With `2 ^ 32 - 5` outputs `Serialize` does not come to an end. -/
theorem manyOutputs_unfinished
    : Encodable { vout := replicate (2 ^ 32 - 5) { nValue := 0 } }
      ∧ ∀ isFullyValid fuel, serialize isFullyValid fuel
          { vout := replicate (2 ^ 32 - 5) { nValue := 0 } } = .error .unfinished := by
  refine ⟨encodable_replicate (by decide), ?_⟩
  intro isFullyValid fuel
  have many : 2 ^ 32 - 6 < (replicate (2 ^ 32 - 5) ({ nValue := 0 } : CTxOut)).length := by
    rw [length_replicate]
    decide
  rw [serialize, calcMaskSize, maskLoop_unfinished many]

end Resistance.Coins

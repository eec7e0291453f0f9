import Resistance.Script.SignatureHash

/-! A `SIGHASH_ALL` digest of an Overwinter or Sapling transaction binds the transaction but
for its signatures, the branch id, and the input that is signed. The concatenations that are
hashed have no counts: every part is recognised by its own encoding.
-/

namespace Resistance.Script

open List Primitives Lib.Codec Lib.Checks JSDescription

variable {rest more : Bytes}

theorem bytes_append_inj {n} {item other : List.Vector UInt8 n}
    (same : serializeBytes item ++ rest = serializeBytes other ++ more)
    : item = other ∧ rest = more :=
  (reads_bytes item).append_inj (reads_bytes other) same

theorem uint32_append_inj {obj other}
    (same : serWritedata32 obj ++ rest = serWritedata32 other ++ more)
    : obj = other ∧ rest = more :=
  (reads32 obj).append_inj (reads32 other) same

/-- Unlike `ReadCompactSize`, this holds for sizes beyond `MAX_SIZE`. -/
theorem writeCompactSize_append_inj {size other}
    (same : writeCompactSize size ++ rest = writeCompactSize other ++ more)
    : size = other ∧ rest = more := by
  obtain ⟨form, payload, written, read⟩ := reads_compactSizeForm size
  obtain ⟨otherForm, otherPayload, otherWritten, otherRead⟩ := reads_compactSizeForm other
  rw [written, otherWritten] at same
  obtain ⟨rfl, payloads⟩ := (reads8 form).append_inj (reads8 otherForm) same
  exact read.append_inj otherRead payloads

theorem serialize_script_append_inj {script other} (fits : script.length < 2 ^ 64)
    (otherFits : other.length < 2 ^ 64)
    (same : CScript.serialize script ++ rest = CScript.serialize other ++ more)
    : script = other ∧ rest = more := by
  simp only [CScript.serialize, serializeVector, append_assoc] at same
  obtain ⟨sizes, bytes⟩ := writeCompactSize_append_inj same
  have lengths := congrArg UInt64.toNat sizes
  rw [UInt64.toNat_ofNat_of_lt' fits, UInt64.toNat_ofNat_of_lt' otherFits] at lengths
  have written : ∀ s : CScript, s.flatMap serWritedata8 = s := flatMap_singleton'
  rw [written, written] at bytes
  exact append_inj bytes lengths

theorem serializeBytes_ne_nil {n} (item : List.Vector UInt8 (n + 1))
    : serializeBytes item ≠ [] := by
  apply ne_nil_of_length_eq_add_one
  rw [serializeBytes, serializeArray, show serWritedata8 = fun b => [b] from rfl,
    flatMap_singleton', List.Vector.toList_length]

theorem serializeInt64_ne_nil (a : Int64) : serializeInt64 a ≠ [] :=
  ne_nil_of_length_eq_add_one (leBytes_length 8 _)

/-- The script's length is a `size_t`. -/
theorem outputs_selfDelimiting
    : SelfDelimiting fun txout bytes =>
        txout.scriptPubKey.length < 2 ^ 64 ∧ CTxOut.serialize txout = bytes where
  nonempty := by
    rintro txout bytes ⟨_, rfl⟩
    exact append_ne_nil_of_left_ne_nil (serializeInt64_ne_nil _) _
  inj := by
    rintro ⟨nValue, script⟩ ⟨otherValue, otherScript⟩ bytes other rest more
      ⟨fits, rfl⟩ ⟨otherFits, rfl⟩ same
    obtain ⟨rfl, scripts⟩ := (readsInt64 _).append_inj (readsInt64 _) same
    obtain ⟨rfl, rests⟩ := serialize_script_append_inj fits otherFits scripts
    exact ⟨rfl, rests⟩

theorem isGroth_of_serialize {useGroth} {proof : SproutProof} {bytes}
    (written : proof.serialize useGroth = .ok bytes)
    : proof.isGroth = useGroth := by
  cases proof <;> cases useGroth <;> first | rfl | cases written

/-- A JoinSplit that is written at all has a proof of the stream's kind. -/
theorem joinSplits_selfDelimiting (version : Int32)
    : SelfDelimiting fun joinsplit bytes =>
        serialize version joinsplit = .ok bytes := by
  have reads : ∀ {joinsplit bytes}, serialize version joinsplit = .ok bytes
      → Reads (unserialize version) bytes joinsplit := by
    intro joinsplit bytes written
    obtain ⟨proof, proofWritten, _⟩ := bind_ok.mp written
    obtain ⟨others, same, read⟩ := reads (isGroth_of_serialize proofWritten)
    cases written.symm.trans same
    exact read
  constructor
  · intro joinsplit bytes written
    obtain ⟨proof, _, result⟩ := bind_ok.mp written
    cases result
    exact append_ne_nil_of_left_ne_nil (serializeInt64_ne_nil _) _
  · intro joinsplit other bytes otherBytes rest more written otherWritten same
    exact (reads written).append_inj (reads otherWritten) same

/-- What a digest can bind of a spend: all but its signature. -/
def withoutSpendAuthSig (spend : SpendDescription) : SpendDescription :=
  { spend with spendAuthSig := zeroBytes 64 }

theorem spends_selfDelimiting
    : SelfDelimiting fun spend bytes =>
        spend.spendAuthSig = zeroBytes 64 ∧ shieldedSpendMessage spend = bytes where
  nonempty := by
    rintro spend bytes ⟨_, rfl⟩
    exact append_ne_nil_of_left_ne_nil (serializeBytes_ne_nil _) _
  inj := by
    rintro ⟨⟩ ⟨⟩ bytes other rest more ⟨⟨⟩, rfl⟩ ⟨⟨⟩, rfl⟩ same
    simp only [shieldedSpendMessage, append_assoc] at same
    obtain ⟨rfl, anchors⟩ := bytes_append_inj same
    obtain ⟨rfl, nullifiers⟩ := bytes_append_inj anchors
    obtain ⟨rfl, keys⟩ := bytes_append_inj nullifiers
    obtain ⟨rfl, proofs⟩ := bytes_append_inj keys
    obtain ⟨rfl, rests⟩ := bytes_append_inj proofs
    exact ⟨rfl, rests⟩

section Messages

variable {tx other : CTransaction}

/-- The encoding depends on the header, which is bound elsewhere. -/
theorem joinSplits_eq {message} (header : tx.getHeader = other.getHeader)
    (written : joinSplitsMessage tx = .ok message)
    (otherWritten : joinSplitsMessage other = .ok message)
    : tx.vJoinSplit = other.vJoinSplit ∧ tx.joinSplitPubKey = other.joinSplitPubKey := by
  obtain ⟨joinsplits, wrote, whole⟩ := bind_ok.mp written
  obtain ⟨others, wroteOthers, otherWhole⟩ := bind_ok.mp otherWritten
  rw [← header] at wroteOthers
  rw [pure_ok] at whole otherWhole
  have sizes : (serializeBytes tx.joinSplitPubKey).length
      = (serializeBytes other.joinSplitPubKey).length := by
    simp [serializeBytes, serializeArray, serWritedata8]
  obtain ⟨same, keys⟩ := (joinSplits_selfDelimiting _).flatten_inj (forall₂_of_mapM wrote)
    (forall₂_of_mapM wroteOthers) sizes (whole.trans otherWhole.symm)
  rw [← append_nil (serializeBytes tx.joinSplitPubKey),
    ← append_nil (serializeBytes other.joinSplitPubKey)] at keys
  exact ⟨same, (bytes_append_inj keys).1⟩

theorem spends_eq (same : shieldedSpendsMessage tx = shieldedSpendsMessage other)
    : tx.vShieldedSpend.map withoutSpendAuthSig
      = other.vShieldedSpend.map withoutSpendAuthSig := by
  have unsigned : ∀ {spends : List SpendDescription},
      ∀ spend ∈ spends.map withoutSpendAuthSig, spend.spendAuthSig = zeroBytes 64 :=
    forall_mem_map.mpr fun _ _ => rfl
  apply spends_selfDelimiting.flatMap_inj unsigned unsigned
  rw [flatMap_map, flatMap_map]
  exact same

end Messages

variable {blake2b : Bytes → Bytes → Uint256} {hash : Bytes → Uint256}

namespace SignatureCall

variable {call left right : SignatureCall}

/-- The cache, if there is one, has been computed from the transaction itself. -/
def CacheMatches (blake2b : Bytes → Bytes → Uint256) (call : SignatureCall) : Prop :=
  ∀ data, call.cache = some data
    → PrecomputedTransactionData.ofTransaction blake2b call.txTo = .ok data

section

variable (matching : call.CacheMatches blake2b)
include matching

theorem hashJoinSplits_eq
    : call.hashJoinSplits blake2b
      = if !call.txTo.vJoinSplit.isEmpty then getJoinSplitsHash blake2b call.txTo
        else .ok .null := by
  unfold hashJoinSplits
  split
  · split
    next data present =>
      obtain ⟨joinSplits, run, made⟩ := bind_ok.mp (matching data present)
      cases made
      exact run.symm
    next => rfl
  · rfl

/-- The digest is the same with and without the cache. -/
theorem message_cache (nHashType : Int32)
    : call.message blake2b nHashType
      = { call with cache := none }.message blake2b nHashType := by
  have computed : ∀ {field : PrecomputedTransactionData → Uint256} {compute : Uint256},
      (∀ joinSplits, field {
        hashPrevouts := getPrevoutHash blake2b call.txTo
        hashSequence := getSequenceHash blake2b call.txTo
        hashOutputs := getOutputsHash blake2b call.txTo
        hashJoinSplits := joinSplits
        hashShieldedSpends := getShieldedSpendsHash blake2b call.txTo
        hashShieldedOutputs := getShieldedOutputsHash blake2b call.txTo } = compute)
      → call.cached field compute = compute := by
    intro field compute made
    unfold cached
    split
    next data present =>
      obtain ⟨joinSplits, _, result⟩ := bind_ok.mp (matching data present)
      rw [← pure_ok.mp result]
      exact made joinSplits
    next => rfl
  simp only [message, hashJoinSplits_eq matching, hashPrevouts, hashSequence, hashOutputs,
    hashShieldedSpends, hashShieldedOutputs]
  rw [computed fun _ => rfl, computed fun _ => rfl, computed fun _ => rfl,
    computed fun _ => rfl, computed fun _ => rfl]
  rfl

end

variable {nHashType : Int32} {digest : Uint256}

/-- The index is checked before anything is hashed. -/
theorem signatureHash_ok (overwintered : call.txTo.fOverwintered = true)
    (run : call.signatureHash blake2b hash nHashType = .ok digest)
    : (call.nIn ≠ notAnInput → call.nIn.toNat < call.txTo.vin.length)
      ∧ ∃ message, call.message blake2b nHashType = .ok message
        ∧ blake2b (sigHashPersonalization call.consensusBranchId) message = digest := by
  have version : signatureHashVersion call.txTo = .sapling
      ∨ signatureHashVersion call.txTo = .overwinter := by
    simp only [signatureHashVersion, overwintered, if_true]
    split
    · exact .inl rfl
    · exact .inr rfl
  unfold signatureHash at run
  split at run
  · cases run
  next inRange =>
    refine ⟨fun input => ?_, ?_⟩
    · by_contra outside
      exact inRange ⟨Nat.not_lt.mp outside, input⟩
    · rcases version with version | version <;> rw [version] at run
      all_goals
        obtain ⟨message, written, result⟩ := bind_ok.mp run
        exact ⟨message, written, pure_ok.mp result⟩

/-- The parts of two equal outer messages. -/
structure SameParts (blake2b : Bytes → Bytes → Uint256) (nHashType : Int32)
    (left right : SignatureCall) : Prop where
  header : left.txTo.getHeader = right.txTo.getHeader
  versionGroupId : left.txTo.nVersionGroupId = right.txTo.nVersionGroupId
  prevouts : left.hashPrevouts blake2b nHashType = right.hashPrevouts blake2b nHashType
  sequences : left.hashSequence blake2b nHashType = right.hashSequence blake2b nHashType
  outputs : left.hashOutputs blake2b nHashType = right.hashOutputs blake2b nHashType
  joinSplits : ∃ digest, left.hashJoinSplits blake2b = .ok digest
    ∧ right.hashJoinSplits blake2b = .ok digest
  spends : left.txTo.nVersionGroupId = saplingVersionGroupId
    → left.hashShieldedSpends blake2b = right.hashShieldedSpends blake2b
  shieldedOutputs : left.txTo.nVersionGroupId = saplingVersionGroupId
    → left.hashShieldedOutputs blake2b = right.hashShieldedOutputs blake2b
  lockTime : left.txTo.nLockTime = right.txTo.nLockTime
  expiryHeight : left.txTo.nExpiryHeight = right.txTo.nExpiryHeight
  valueBalance : left.txTo.nVersionGroupId = saplingVersionGroupId
    → left.txTo.valueBalance = right.txTo.valueBalance
  input : left.inputMessage = right.inputMessage

theorem sameParts_of_message {message} (overwintered : left.txTo.fOverwintered = true)
    (otherOverwintered : right.txTo.fOverwintered = true)
    (written : left.message blake2b nHashType = .ok message)
    (otherWritten : right.message blake2b nHashType = .ok message)
    : SameParts blake2b nHashType left right := by
  obtain ⟨joinSplits, hashed, whole⟩ := bind_ok.mp written
  obtain ⟨others, otherHashed, otherWhole⟩ := bind_ok.mp otherWritten
  have same := (pure_ok.mp whole).trans (pure_ok.mp otherWhole).symm
  simp only [signatureHashVersion, overwintered, otherOverwintered] at same
  obtain ⟨header, same⟩ := uint32_append_inj same
  obtain ⟨versionGroupId, same⟩ := uint32_append_inj same
  obtain ⟨prevouts, same⟩ := bytes_append_inj same
  obtain ⟨sequences, same⟩ := bytes_append_inj same
  obtain ⟨outputs, same⟩ := bytes_append_inj same
  obtain ⟨joinSplitsEq, same⟩ := bytes_append_inj same
  have joined : ∃ digest, left.hashJoinSplits blake2b = .ok digest
      ∧ right.hashJoinSplits blake2b = .ok digest :=
    ⟨joinSplits, hashed, joinSplitsEq ▸ otherHashed⟩
  -- The version group decides whether the Sapling fields are present.
  by_cases sapling : left.txTo.nVersionGroupId = saplingVersionGroupId
  · rw [versionGroupId] at sapling
    simp only [versionGroupId, sapling, if_true, append_assoc] at same
    obtain ⟨spends, same⟩ := bytes_append_inj same
    obtain ⟨shieldedOutputs, same⟩ := bytes_append_inj same
    obtain ⟨lockTime, same⟩ := uint32_append_inj same
    obtain ⟨expiryHeight, same⟩ := uint32_append_inj same
    obtain ⟨valueBalance, same⟩ := (readsInt64 _).append_inj (readsInt64 _) same
    obtain ⟨_, input⟩ := uint32_append_inj same
    exact ⟨header, versionGroupId, prevouts, sequences, outputs, joined, fun _ => spends,
      fun _ => shieldedOutputs, lockTime, expiryHeight, fun _ => valueBalance, input⟩
  · have otherSapling : right.txTo.nVersionGroupId ≠ saplingVersionGroupId :=
      versionGroupId ▸ sapling
    simp only [sapling, otherSapling] at same
    obtain ⟨lockTime, same⟩ := uint32_append_inj same
    obtain ⟨expiryHeight, same⟩ := uint32_append_inj same
    obtain ⟨_, input⟩ := uint32_append_inj same
    exact ⟨header, versionGroupId, prevouts, sequences, outputs, joined,
      fun other => absurd other sapling, fun other => absurd other sapling, lockTime,
      expiryHeight, fun other => absurd other sapling, input⟩

/-- What one call hashes with `SIGHASH_ALL`, each message with its personalisation. -/
inductive Hashed (blake2b : Bytes → Bytes → Uint256) (call : SignatureCall)
    : Bytes × Bytes → Prop where
  | prevouts : Hashed blake2b call
      (zcashPrevoutsHashPersonalization, prevoutsMessage call.txTo)
  | sequences : Hashed blake2b call
      (zcashSequenceHashPersonalization, sequencesMessage call.txTo)
  | outputs : Hashed blake2b call
      (zcashOutputsHashPersonalization, outputsMessage call.txTo)
  | joinSplits {message : Bytes} (nonempty : call.txTo.vJoinSplit ≠ [])
      (written : joinSplitsMessage call.txTo = .ok message)
      : Hashed blake2b call (zcashJoinSplitsHashPersonalization, message)
  | spends (nonempty : call.txTo.vShieldedSpend ≠ []) : Hashed blake2b call
      (zcashShieldedSpendsHashPersonalization, shieldedSpendsMessage call.txTo)
  | shieldedOutputs (nonempty : call.txTo.vShieldedOutput ≠ []) : Hashed blake2b call
      (zcashShieldedOutputsHashPersonalization, shieldedOutputsMessage call.txTo)
  | whole {message : Bytes} (written : call.message blake2b sighashAll = .ok message)
      : Hashed blake2b call (sigHashPersonalization call.consensusBranchId, message)

/-- The hash is injective on what the two calls hash, and zero on none of it. -/
structure NoCollision (blake2b : Bytes → Bytes → Uint256) (left right : SignatureCall)
    : Prop where
  inj : Set.InjOn (Function.uncurry blake2b)
    {p | left.Hashed blake2b p ∨ right.Hashed blake2b p}
  ne_null : ∀ p, left.Hashed blake2b p ∨ right.Hashed blake2b p
    → Function.uncurry blake2b p ≠ .null

theorem NoCollision.eq (free : NoCollision blake2b left right) {personal other message otherMessage}
    (hashed : left.Hashed blake2b (personal, message))
    (otherHashed : right.Hashed blake2b (other, otherMessage))
    (same : blake2b personal message = blake2b other otherMessage)
    : personal = other ∧ message = otherMessage :=
  Prod.mk.inj (free.inj (.inl hashed) (.inr otherHashed) same)

/-- A zero placeholder stands for an empty list only. -/
theorem placeholder_eq {α β} {xs ys : List α} {other} {f : List α → β}
    (nonnull : xs ≠ [] → digest ≠ .null) (otherNonnull : ys ≠ [] → other ≠ .null)
    (same : (if !xs.isEmpty then digest else .null) = if !ys.isEmpty then other else .null)
    (equal : xs ≠ [] → ys ≠ [] → digest = other → f xs = f ys)
    : f xs = f ys := by
  cases xs with
  | nil =>
    cases ys with
    | nil => rfl
    | cons y ys => exact absurd same.symm (otherNonnull (cons_ne_nil y ys))
  | cons x xs =>
    cases ys with
    | nil => exact absurd same (nonnull (cons_ne_nil x xs))
    | cons y ys => exact equal (cons_ne_nil x xs) (cons_ne_nil y ys) same

/-- What the two calls have in common. -/
structure Agree (left right : SignatureCall) : Prop where
  header : left.txTo.getHeader = right.txTo.getHeader
  versionGroupId : left.txTo.nVersionGroupId = right.txTo.nVersionGroupId
  prevouts : left.txTo.vin.map CTxIn.prevout = right.txTo.vin.map CTxIn.prevout
  sequences : left.txTo.vin.map CTxIn.nSequence = right.txTo.vin.map CTxIn.nSequence
  vout : left.txTo.vout = right.txTo.vout
  vJoinSplit : left.txTo.vJoinSplit = right.txTo.vJoinSplit
  joinSplitPubKey : left.txTo.vJoinSplit ≠ []
    → left.txTo.joinSplitPubKey = right.txTo.joinSplitPubKey
  lockTime : left.txTo.nLockTime = right.txTo.nLockTime
  expiryHeight : left.txTo.nExpiryHeight = right.txTo.nExpiryHeight
  spends : left.txTo.nVersionGroupId = saplingVersionGroupId
    → left.txTo.vShieldedSpend.map withoutSpendAuthSig
      = right.txTo.vShieldedSpend.map withoutSpendAuthSig
  shieldedOutputs : left.txTo.nVersionGroupId = saplingVersionGroupId
    → left.txTo.vShieldedOutput = right.txTo.vShieldedOutput
  valueBalance : left.txTo.nVersionGroupId = saplingVersionGroupId
    → left.txTo.valueBalance = right.txTo.valueBalance
  branchId : left.consensusBranchId = right.consensusBranchId
  signsInput : left.nIn = notAnInput ↔ right.nIn = notAnInput
  signedInput : left.nIn ≠ notAnInput → ∃ txin other,
    left.txTo.vin[left.nIn.toNat]? = some txin
    ∧ right.txTo.vin[right.nIn.toNat]? = some other
    ∧ txin.prevout = other.prevout
    ∧ txin.nSequence = other.nSequence
    ∧ left.scriptCode = right.scriptCode
    ∧ left.amount = right.amount

/-- An object's scripts have sizes that fit a `size_t`. -/
structure ScriptsFit (call : SignatureCall) : Prop where
  scriptCode : call.scriptCode.length < 2 ^ 64
  scriptPubKey : ∀ txout ∈ call.txTo.vout, txout.scriptPubKey.length < 2 ^ 64

theorem inputMessage_of_input {txin} (input : call.nIn ≠ notAnInput)
    (signed : call.txTo.vin[call.nIn.toNat]? = some txin)
    : call.inputMessage = txin.prevout.serialize
        ++ (CScript.serialize call.scriptCode
        ++ (serializeInt64 call.amount
        ++ serWritedata32 txin.nSequence)) := by
  rw [inputMessage, if_neg input, signed]

theorem inputMessage_eq_nil_iff
    (inRange : call.nIn ≠ notAnInput → call.nIn.toNat < call.txTo.vin.length)
    : call.inputMessage = [] ↔ call.nIn = notAnInput := by
  constructor
  · intro empty
    by_contra input
    rw [inputMessage_of_input input (getElem?_eq_getElem (inRange input))] at empty
    exact serializeBytes_ne_nil _ (append_eq_nil_iff.mp (append_eq_nil_iff.mp empty).1).1
  · intro none
    rw [inputMessage, if_pos none]

theorem signedInput_of_message (fits : left.ScriptsFit) (otherFits : right.ScriptsFit)
    (inRange : left.nIn ≠ notAnInput → left.nIn.toNat < left.txTo.vin.length)
    (otherInRange : right.nIn ≠ notAnInput → right.nIn.toNat < right.txTo.vin.length)
    (same : left.inputMessage = right.inputMessage)
    : (left.nIn = notAnInput ↔ right.nIn = notAnInput)
      ∧ (left.nIn ≠ notAnInput → ∃ txin other, left.txTo.vin[left.nIn.toNat]? = some txin
        ∧ right.txTo.vin[right.nIn.toNat]? = some other
        ∧ txin.prevout = other.prevout
        ∧ txin.nSequence = other.nSequence
        ∧ left.scriptCode = right.scriptCode
        ∧ left.amount = right.amount) := by
  have signs : left.nIn = notAnInput ↔ right.nIn = notAnInput := by
    rw [← inputMessage_eq_nil_iff inRange, ← inputMessage_eq_nil_iff otherInRange, same]
  refine ⟨signs, fun input => ?_⟩
  have otherInput : right.nIn ≠ notAnInput := fun none => input (signs.mpr none)
  have signed := getElem?_eq_getElem (inRange input)
  have otherSigned := getElem?_eq_getElem (otherInRange otherInput)
  rw [inputMessage_of_input input signed, inputMessage_of_input otherInput otherSigned] at same
  obtain ⟨prevouts, scripts⟩ := (COutPoint.reads _).append_inj (COutPoint.reads _) same
  obtain ⟨scriptCode, amounts⟩ :=
    serialize_script_append_inj fits.scriptCode otherFits.scriptCode scripts
  obtain ⟨amount, sequences⟩ := (readsInt64 _).append_inj (readsInt64 _) amounts
  obtain ⟨sequence, _⟩ := uint32_append_inj sequences
  exact ⟨_, _, signed, otherSigned, prevouts, sequence, scriptCode, amount⟩

theorem hashJoinSplits_cases {digest}
    (hashed : { call with cache := none }.hashJoinSplits blake2b = .ok digest)
    : (call.txTo.vJoinSplit = [] ∧ digest = .null)
      ∨ (call.txTo.vJoinSplit ≠ [] ∧ ∃ message, joinSplitsMessage call.txTo = .ok message
        ∧ blake2b zcashJoinSplitsHashPersonalization message = digest) := by
  simp only [hashJoinSplits] at hashed
  split at hashed
  next nonempty =>
    obtain ⟨message, written, result⟩ := bind_ok.mp hashed
    refine .inr ⟨?_, message, written, pure_ok.mp result⟩
    intro empty
    rw [empty] at nonempty
    cases nonempty
  next empty =>
    cases hashed
    exact .inl ⟨by simpa using empty, rfl⟩

section

variable (free : NoCollision blake2b left right)
include free

theorem joinSplits_of_parts {digest} (header : left.txTo.getHeader = right.txTo.getHeader)
    (hashed : { left with cache := none }.hashJoinSplits blake2b = .ok digest)
    (otherHashed : { right with cache := none }.hashJoinSplits blake2b = .ok digest)
    : left.txTo.vJoinSplit = right.txTo.vJoinSplit
      ∧ (left.txTo.vJoinSplit ≠ []
        → left.txTo.joinSplitPubKey = right.txTo.joinSplitPubKey) := by
  rcases hashJoinSplits_cases hashed with
    ⟨empty, null⟩ | ⟨nonempty, message, written, result⟩
  · rcases hashJoinSplits_cases otherHashed with
      ⟨otherEmpty, _⟩ | ⟨otherNonempty, message, written, result⟩
    · exact ⟨empty.trans otherEmpty.symm, fun nonempty => absurd empty nonempty⟩
    · exact absurd (result.trans null) (free.ne_null _ (.inr (.joinSplits otherNonempty written)))
  · rcases hashJoinSplits_cases otherHashed with
      ⟨_, null⟩ | ⟨otherNonempty, other, otherWritten, otherResult⟩
    · exact absurd (result.trans null) (free.ne_null _ (.inl (.joinSplits nonempty written)))
    · obtain ⟨_, rfl⟩ := free.eq (.joinSplits nonempty written)
        (.joinSplits otherNonempty otherWritten) (result.trans otherResult.symm)
      obtain ⟨joinsplits, keys⟩ := joinSplits_eq header written otherWritten
      exact ⟨joinsplits, fun _ => keys⟩

theorem spends_of_digest (same : { left with cache := none }.hashShieldedSpends blake2b
      = { right with cache := none }.hashShieldedSpends blake2b)
    : left.txTo.vShieldedSpend.map withoutSpendAuthSig
      = right.txTo.vShieldedSpend.map withoutSpendAuthSig := by
  refine placeholder_eq (f := map withoutSpendAuthSig)
    (fun nonempty => free.ne_null _ (.inl (.spends nonempty)))
    (fun nonempty => free.ne_null _ (.inr (.spends nonempty))) same ?_
  exact fun nonempty other digests =>
    spends_eq (free.eq (.spends nonempty) (.spends other) digests).2

theorem shieldedOutputs_of_digest (same : { left with cache := none }.hashShieldedOutputs blake2b
      = { right with cache := none }.hashShieldedOutputs blake2b)
    : left.txTo.vShieldedOutput = right.txTo.vShieldedOutput := by
  refine placeholder_eq (f := id)
    (fun nonempty => free.ne_null _ (.inl (.shieldedOutputs nonempty)))
    (fun nonempty => free.ne_null _ (.inr (.shieldedOutputs nonempty))) same ?_
  exact fun nonempty other digests => flatMap_inj_of_reads OutputDescription.reads
    (fun _ => append_ne_nil_of_left_ne_nil (serializeBytes_ne_nil _) _)
    (free.eq (.shieldedOutputs nonempty) (.shieldedOutputs other) digests).2

end

/-- Equal `SIGHASH_ALL` digests come from calls that agree on everything a signature should
cover. Nothing is assumed of the hash beyond the messages at hand.
-/
theorem sighashAll_binds {digest : Uint256} (overwintered : left.txTo.fOverwintered = true)
    (otherOverwintered : right.txTo.fOverwintered = true)
    (matching : left.CacheMatches blake2b) (otherMatching : right.CacheMatches blake2b)
    (fits : left.ScriptsFit) (otherFits : right.ScriptsFit) (free : NoCollision blake2b left right)
    (run : left.signatureHash blake2b hash sighashAll = .ok digest)
    (otherRun : right.signatureHash blake2b hash sighashAll = .ok digest)
    : Agree left right := by
  obtain ⟨inRange, message, written, hashed⟩ := signatureHash_ok overwintered run
  obtain ⟨otherInRange, other, otherWritten, otherHashed⟩ :=
    signatureHash_ok otherOverwintered otherRun
  obtain ⟨personal, rfl⟩ :=
    free.eq (.whole written) (.whole otherWritten) (hashed.trans otherHashed.symm)
  rw [message_cache matching] at written
  rw [message_cache otherMatching] at otherWritten
  -- The caches are gone: every part is now computed from the transaction.
  have parts : SameParts blake2b sighashAll
      { left with cache := none } { right with cache := none } :=
    sameParts_of_message overwintered otherOverwintered written otherWritten
  obtain ⟨joinSplits, leftJoined, rightJoined⟩ := parts.joinSplits
  obtain ⟨vJoinSplit, joinSplitPubKey⟩ :=
    joinSplits_of_parts free parts.header leftJoined rightJoined
  obtain ⟨signsInput, signedInput⟩ :=
    signedInput_of_message fits otherFits inRange otherInRange parts.input
  exact {
    header := parts.header
    versionGroupId := parts.versionGroupId
    prevouts := by
      apply flatMap_inj_of_reads COutPoint.reads
        fun _ => append_ne_nil_of_left_ne_nil (serializeBytes_ne_nil _) _
      rw [flatMap_map, flatMap_map]
      exact (free.eq .prevouts .prevouts parts.prevouts).2
    sequences := by
      apply flatMap_inj_of_reads reads32 fun _ => ne_nil_of_length_eq_add_one (leBytes_length 4 _)
      rw [flatMap_map, flatMap_map]
      exact (free.eq .sequences .sequences parts.sequences).2
    vout := outputs_selfDelimiting.flatMap_inj fits.scriptPubKey otherFits.scriptPubKey
      (free.eq .outputs .outputs parts.outputs).2
    vJoinSplit
    joinSplitPubKey
    lockTime := parts.lockTime
    expiryHeight := parts.expiryHeight
    spends := fun sapling => spends_of_digest free (parts.spends sapling)
    shieldedOutputs := fun sapling =>
      shieldedOutputs_of_digest free (parts.shieldedOutputs sapling)
    valueBalance := parts.valueBalance
    branchId := (uint32_append_inj (append_cancel_left personal)).1
    signsInput
    signedInput
  }

section Sample

theorem length_padded (bytes : Bytes) : ((bytes ++ List.replicate 32 0).take 32).length = 32 := by
  simp

/-- A digest that depends on the personalisation only. -/
def namedDigest (personal _message : Bytes) : Uint256 :=
  ⟨_, length_padded personal⟩

/-- A Sapling transaction with one input, one output and one spend. -/
def saplingPayment (scriptSig : CScript) (spendAuthSig : List.Vector UInt8 64) : CTransaction where
  fOverwintered := true
  nVersion := saplingTxVersion
  nVersionGroupId := saplingVersionGroupId
  vin := [{ prevout := { n := 1 }, scriptSig }]
  vout := [{ nValue := 5, scriptPubKey := [0x51] }]
  vShieldedSpend := [{ spendAuthSig }]
  hash := .null

def unsignedCall : SignatureCall where
  scriptCode := [0x51]
  txTo := saplingPayment [] (zeroBytes 64)
  nIn := 0
  amount := 7
  consensusBranchId := 0x76b809bb

/-- The same payment with its signatures, and with a cache. -/
def signedCall : SignatureCall :=
  let txTo := saplingPayment [0x01, 0xff] (List.Vector.replicate 64 1)
  {
    unsignedCall with
    txTo
    cache := (PrecomputedTransactionData.ofTransaction namedDigest txTo).toOption
  }

def hashedPairs (blake2b : Bytes → Bytes → Uint256) (call : SignatureCall)
    : List (Bytes × Bytes) := [
  (zcashPrevoutsHashPersonalization, prevoutsMessage call.txTo),
  (zcashSequenceHashPersonalization, sequencesMessage call.txTo),
  (zcashOutputsHashPersonalization, outputsMessage call.txTo),
  (zcashJoinSplitsHashPersonalization, (joinSplitsMessage call.txTo).toOption.getD []),
  (zcashShieldedSpendsHashPersonalization, shieldedSpendsMessage call.txTo),
  (zcashShieldedOutputsHashPersonalization, shieldedOutputsMessage call.txTo),
  (sigHashPersonalization call.consensusBranchId,
    (call.message blake2b sighashAll).toOption.getD [])
]

theorem mem_hashedPairs {p} (hashed : call.Hashed blake2b p)
    : p ∈ hashedPairs blake2b call := by
  cases hashed with
  | joinSplits nonempty written => simp [hashedPairs, written, Except.toOption]
  | whole written => simp [hashedPairs, written, Except.toOption]
  | _ => simp [hashedPairs]

/-- Two calls that hash the same messages are free of collisions if one is. -/
theorem noCollision_of_pairs (same : hashedPairs blake2b right = hashedPairs blake2b left)
    (distinct : ((hashedPairs blake2b left).map (Function.uncurry blake2b)).Nodup)
    (nonnull : .null ∉ (hashedPairs blake2b left).map (Function.uncurry blake2b))
    : NoCollision blake2b left right := by
  have mem : ∀ {p}, left.Hashed blake2b p ∨ right.Hashed blake2b p
      → p ∈ hashedPairs blake2b left := by
    intro p hashed
    rcases hashed with hashed | hashed
    · exact mem_hashedPairs hashed
    · exact same ▸ mem_hashedPairs hashed
  constructor
  · intro p first q second digests
    exact inj_on_of_nodup_map distinct (mem first) (mem second) digests
  · intro p hashed null
    exact nonnull (mem_map.mpr ⟨p, mem hashed, null⟩)

/-- Signing the payment does not change its digest. -/
theorem sighashAll_binds_signed : Agree unsignedCall signedCall := by
  obtain ⟨digest, run⟩ : ∃ digest,
      unsignedCall.signatureHash namedDigest (fun _ => .null) sighashAll = .ok digest :=
    exists_of_isOk (by decide +kernel)
  have same : signedCall.signatureHash namedDigest (fun _ => .null) sighashAll
      = unsignedCall.signatureHash namedDigest (fun _ => .null) sighashAll := by
    decide +kernel
  have pairs : hashedPairs namedDigest signedCall = hashedPairs namedDigest unsignedCall := by
    decide +kernel
  refine sighashAll_binds rfl rfl (fun data absent => by cases absent) ?_
    ⟨by decide, by decide⟩ ⟨by decide, by decide⟩
    (noCollision_of_pairs pairs (by decide +kernel) (by decide +kernel)) run (same.trans run)
  intro data present
  exact eq_ok_of_toOption present

end Sample

/-- Precomputed hashes change no digest. -/
theorem signatureHash_precomputed
    : (PrecomputedTransactionData.ofTransaction blake2b call.txTo).bind
        (fun data => { call with cache := some data }.signatureHash blake2b hash nHashType)
      = (PrecomputedTransactionData.ofTransaction blake2b call.txTo).bind
        fun _ => { call with cache := none }.signatureHash blake2b hash nHashType := by
  unfold Except.bind
  split
  · rfl
  next data made =>
    have matching : { call with cache := some data }.CacheMatches blake2b := by
      rintro _ ⟨⟩
      exact made
    simp only [signatureHash, message_cache matching]

end SignatureCall

end Resistance.Script

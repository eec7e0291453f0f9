import Resistance.Primitives.RoundTrip

/-! The three ways to build an immutable transaction: copied from a mutable one, moved from
one, and read from a stream. The move constructor leaves out the binding signature, and the
reading constructor starts from members that nothing has initialized.
-/

namespace Resistance.Primitives

open Lib.Codec CMutableTransaction Returns JSDescription

theorem CScript.returns
    : Returns CScript.unserialize (fun script => script.length ≤ maxSize.toNat) := by
  intro stream script rest run
  exact (returns_vector (Returns.trivial _) _ _ _ run).1

theorem CTxIn.returns
    : Returns CTxIn.unserialize (fun txin => txin.scriptSig.length ≤ maxSize.toNat) :=
  skip fun _ =>
    CScript.returns.bind fun _ bound => skip fun _ =>
      pure bound

theorem CTxOut.returns
    : Returns CTxOut.unserialize
        (fun txout => txout.scriptPubKey.length ≤ maxSize.toNat) :=
  skip fun _ => CScript.returns.bind fun _ bound => pure bound

theorem SproutProof.returns (useGroth : Bool)
    : Returns (SproutProof.unserialize useGroth)
        (fun proof => proof.isGroth = useGroth) := by
  cases useGroth with
  | false => exact skip fun _ => pure rfl
  | true => exact skip fun _ => pure rfl

theorem JSDescription.returns (version : Int32)
    : Returns (unserialize version)
        (fun joinsplit => joinsplit.proof.isGroth = useGroth version) :=
  skip fun _ => skip fun _ => skip fun _ => skip fun _ =>
    skip fun _ => skip fun _ => skip fun _ => skip fun _ =>
    (SproutProof.returns _).bind fun _ kind => skip fun _ =>
    pure kind

namespace CMutableTransaction

/-- Packing the header again gives the word it was unpacked from. -/
theorem getHeader_unpacked {tx : CMutableTransaction} {header : UInt32}
    (overwintered : tx.fOverwintered = (header >>> 31 != 0))
    (version : tx.nVersion = (header &&& 0x7FFFFFFF).toInt32)
    : tx.getHeader = header := by
  have bound := header.toNat_lt
  have low : (header &&& 0x7FFFFFFF).toNat = header.toNat % 2 ^ 31 := by
    exact Nat.and_two_pow_sub_one_eq_mod _ 31
  have high : (header >>> 31).toNat = header.toNat / 2 ^ 31 := by
    exact Nat.shiftRight_eq_div_pow _ 31
  simp only [getHeader, overwintered, version, UInt32.toUInt32_toInt32]
  rw [← UInt32.toNat_inj]
  by_cases clear : header >>> 31 = 0
  · rw [clear] at high
    simp only [clear, bne_self_eq_false, Bool.false_eq_true, if_false]
    rw [UInt32.toNat_zero] at high
    omega
  · have set : (header >>> 31 != 0) = true := by simpa using clear
    have pos : 0 < (header >>> 31).toNat := by
      rw [Nat.pos_iff_ne_zero, ne_eq, ← UInt32.toNat_zero, UInt32.toNat_inj]
      exact clear
    have sign : ((1 : UInt32) <<< 31).toNat = 2 ^ 31 * 1 := rfl
    rw [set, if_pos rfl, UInt32.toNat_or, low, sign, Nat.or_comm,
      ← Nat.two_pow_add_eq_or_of_lt (Nat.mod_lt _ (by decide))]
    omega

theorem nonneg_unpacked (header : UInt32) : 0 ≤ (header &&& 0x7FFFFFFF).toInt32 := by
  have low : (header &&& 0x7FFFFFFF).toNat < 2 ^ 31 := by
    exact Nat.and_lt_two_pow _ (by decide)
  have signed : (header &&& 0x7FFFFFFF).toInt32.toInt
      = Int.bmod (header &&& 0x7FFFFFFF).toNat (2 ^ 32) :=
    BitVec.toInt_eq_toNat_bmod _
  rw [Int32.le_iff_toInt_le, signed, Int.bmod_def]
  simp only [Int32.toInt_zero]
  omega

section Stages

variable {tx : CMutableTransaction}

theorem returns_version (header : UInt32) (self : CMutableTransaction)
    : Returns (self.unserializeVersion header)
        (fun tx => tx.getHeader = header ∧ 0 ≤ tx.nVersion) := by
  simp only [unserializeVersion]
  split
  · refine skip fun nVersionGroupId => pure ?_
    exact ⟨getHeader_unpacked rfl rfl, nonneg_unpacked header⟩
  · exact pure ⟨getHeader_unpacked rfl rfl, nonneg_unpacked header⟩

theorem returns_transparent
    : Returns tx.unserializeTransparent (fun next => ∃ vin vout nLockTime,
        next = { tx with vin, vout, nLockTime }
        ∧ (vin.length ≤ maxSize.toNat
          ∧ ∀ txin ∈ vin, txin.scriptSig.length ≤ maxSize.toNat)
        ∧ vout.length ≤ maxSize.toNat
        ∧ ∀ txout ∈ vout, txout.scriptPubKey.length ≤ maxSize.toNat) := by
  refine (returns_vector CTxIn.returns).bind fun vin inputs => ?_
  refine (returns_vector CTxOut.returns).bind fun vout outputs => ?_
  refine skip fun nLockTime => pure ?_
  exact ⟨vin, vout, nLockTime, rfl, inputs, outputs⟩

theorem returns_expiryHeight
    : Returns tx.unserializeExpiryHeight
        (fun next => ∃ nExpiryHeight, next = { tx with nExpiryHeight }) := by
  unfold unserializeExpiryHeight
  split
  · exact skip fun height => pure ⟨height, rfl⟩
  · exact pure ⟨tx.nExpiryHeight, rfl⟩

theorem returns_shielded
    : Returns tx.unserializeShielded
        (fun next => ∃ valueBalance vShieldedSpend vShieldedOutput,
          next = { tx with valueBalance, vShieldedSpend, vShieldedOutput }
          ∧ (tx.isSaplingV4 = true → vShieldedSpend.length ≤ maxSize.toNat
            ∧ vShieldedOutput.length ≤ maxSize.toNat)) := by
  unfold unserializeShielded
  split
  · refine skip fun valueBalance => ?_
    refine (returns_vector (Returns.trivial _)).bind fun spends spendBound => ?_
    refine (returns_vector (Returns.trivial _)).bind fun outputs outputBound => ?_
    exact pure ⟨valueBalance, spends, outputs, rfl, fun _ => ⟨spendBound.1, outputBound.1⟩⟩
  next other =>
    exact pure ⟨tx.valueBalance, tx.vShieldedSpend, tx.vShieldedOutput, rfl,
      fun sapling => absurd sapling other⟩

theorem returns_joinSplits (header : UInt32)
    : Returns (tx.unserializeJoinSplits header)
        (fun next => ∃ vJoinSplit joinSplitPubKey joinSplitSig,
          next = { tx with vJoinSplit, joinSplitPubKey, joinSplitSig }
          ∧ (2 ≤ tx.nVersion → vJoinSplit.length ≤ maxSize.toNat
            ∧ ∀ joinsplit ∈ vJoinSplit, joinsplit.proof.isGroth = useGroth header.toInt32)) := by
  unfold unserializeJoinSplits
  split
  · refine (returns_vector (returns _)).bind fun joinsplits read => ?_
    split
    · refine skip fun key => ?_
      refine skip fun signature => pure ?_
      exact ⟨joinsplits, key, signature, rfl, fun _ => read⟩
    · exact pure ⟨joinsplits, tx.joinSplitPubKey, tx.joinSplitSig, rfl, fun _ => read⟩
  next absent =>
    exact pure ⟨tx.vJoinSplit, tx.joinSplitPubKey, tx.joinSplitSig, rfl,
      fun present => absurd present absent⟩

theorem returns_bindingSig
    : Returns tx.unserializeBindingSig
        (fun next => ∃ bindingSig, next = { tx with bindingSig }) := by
  unfold unserializeBindingSig
  split
  · exact skip fun signature => pure ⟨signature, rfl⟩
  · exact pure ⟨tx.bindingSig, rfl⟩

end Stages

/-- Whatever the stream, an object that has been read is of an accepted format and within
its limits.
-/
theorem returns_unserialize (self : CMutableTransaction)
    : Returns self.unserialize
        (fun tx => tx.AcceptedHeader ∧ tx.WithinMaxSize ∧ tx.ProofsMatch) := by
  refine skip fun header => ?_
  refine (returns_version header self).bind fun object version => ?_
  obtain ⟨packed, nonneg⟩ := version
  split
  · exact fail _
  next known =>
    have accepted : object.AcceptedHeader := by
      cases overwintered : object.fOverwintered with
      | false => exact .inl ⟨overwintered, nonneg⟩
      | true =>
        cases overwinter : object.isOverwinterV3 with
        | true => exact .inr (.inl overwinter)
        | false =>
          refine .inr (.inr ?_)
          simpa [overwintered, overwinter] using known
    refine returns_transparent.bind fun next transparent => ?_
    obtain ⟨vin, vout, nLockTime, rfl, inputs, outputs⟩ := transparent
    refine returns_expiryHeight.bind fun next expiry => ?_
    obtain ⟨nExpiryHeight, rfl⟩ := expiry
    refine returns_shielded.bind fun next shielded => ?_
    obtain ⟨valueBalance, spends, outs, rfl, shieldedBound⟩ := shielded
    refine (returns_joinSplits header).bind fun next joined => ?_
    obtain ⟨joinsplits, key, signature, rfl, joinsplitBound⟩ := joined
    intro stream tx rest run
    obtain ⟨bindingSig, rfl⟩ := returns_bindingSig _ _ _ run
    refine ⟨accepted, ?_, ?_⟩
    · exact {
        vin := inputs.1
        scriptSig := inputs.2
        vout := outputs.1
        scriptPubKey := outputs.2
        vShieldedSpend := fun sapling => (shieldedBound sapling).1
        vShieldedOutput := fun sapling => (shieldedBound sapling).2
        vJoinSplit := fun present => (joinsplitBound present).1
      }
    · intro present joinsplit mem
      rw [(joinsplitBound present).2 joinsplit mem, ← packed]
      exact useGroth_getHeader accepted

/-- What is read can be written, and is read back. -/
theorem returns_rereadable (self : CMutableTransaction)
    : Returns self.unserialize fun tx => ∃ bytes, tx.serialize = .ok bytes
        ∧ ∀ other : CMutableTransaction, Reads other.unserialize bytes (tx.onto other) := by
  intro stream tx rest run
  obtain ⟨accepted, sized, proofs⟩ := returns_unserialize self stream tx rest run
  obtain ⟨bytes, written, -⟩ := reads_onto accepted sized proofs self
  refine ⟨bytes, written, fun other => ?_⟩
  obtain ⟨_, again, read⟩ := reads_onto accepted sized proofs other
  cases written.symm.trans again
  exact read

end CMutableTransaction

section Constructors

-- The double SHA-256 of `CHashWriter`, which `SerializeHash` applies to a serialization.
variable (sha256d : Bytes → Uint256)

def CMutableTransaction.getHash (tx : CMutableTransaction) : Except String Uint256 := do
  let bytes ← tx.serialize
  return sha256d bytes

-- `CTransaction::SerializationOp` repeats the text of the mutable one.
def CTransaction.serialize (tx : CTransaction) : Except String Bytes :=
  tx.toCMutableTransaction.serialize

/-- The members of a transaction under construction, followed by `UpdateHash`. -/
def CTransaction.updateHash (members : CMutableTransaction) : Except String CTransaction := do
  let bytes ← members.serialize
  return { members with hash := sha256d bytes }

/-- `CTransaction(const CMutableTransaction &tx)`. -/
def CTransaction.copy (tx : CMutableTransaction) : Except String CTransaction :=
  updateHash sha256d {
    nVersion := tx.nVersion
    fOverwintered := tx.fOverwintered
    nVersionGroupId := tx.nVersionGroupId
    nExpiryHeight := tx.nExpiryHeight
    vin := tx.vin
    vout := tx.vout
    nLockTime := tx.nLockTime
    valueBalance := tx.valueBalance
    vShieldedSpend := tx.vShieldedSpend
    vShieldedOutput := tx.vShieldedOutput
    vJoinSplit := tx.vJoinSplit
    joinSplitPubKey := tx.joinSplitPubKey
    joinSplitSig := tx.joinSplitSig
    bindingSig := tx.bindingSig
  }

/-- `CTransaction(CMutableTransaction &&tx)`. Its initializer list has no `bindingSig`, so
that member keeps the initializer of its declaration, 64 zero bytes.
-/
def CTransaction.move (tx : CMutableTransaction) : Except String CTransaction :=
  updateHash sha256d {
    nVersion := tx.nVersion
    fOverwintered := tx.fOverwintered
    nVersionGroupId := tx.nVersionGroupId
    vin := tx.vin
    vout := tx.vout
    nLockTime := tx.nLockTime
    nExpiryHeight := tx.nExpiryHeight
    valueBalance := tx.valueBalance
    vShieldedSpend := tx.vShieldedSpend
    vShieldedOutput := tx.vShieldedOutput
    vJoinSplit := tx.vJoinSplit
    joinSplitPubKey := tx.joinSplitPubKey
    joinSplitSig := tx.joinSplitSig
    bindingSig := zeroBytes 64
  }

/-- What the memory of a new object holds in the members that have no initializer. -/
structure Memory where
  fOverwintered : Bool
  nVersion : Int32
  nVersionGroupId : UInt32
  nLockTime : UInt32
  nExpiryHeight : UInt32
  valueBalance : CAmount

/-- A `CMutableTransaction` whose constructor has no initializer list: vectors, hashes and
signatures are set up by their own types or declarations, the numbers are not.
-/
def CMutableTransaction.uninitialized (memory : Memory) : CMutableTransaction where
  fOverwintered := memory.fOverwintered
  nVersion := memory.nVersion
  nVersionGroupId := memory.nVersionGroupId
  nLockTime := memory.nLockTime
  nExpiryHeight := memory.nExpiryHeight
  valueBalance := memory.valueBalance

/-- `CTransaction(deserialize_type, Stream& s)`, which moves from the mutable transaction
that `CMutableTransaction(deserialize_type, Stream& s)` reads.
-/
def CTransaction.deserialize (memory : Memory) : Reader String CTransaction := fun s =>
  match (CMutableTransaction.uninitialized memory).unserialize s with
  | .error e => .error e
  | .ok (tx, rest) =>
    match CTransaction.move sha256d tx with
    | .error e => .error e
    | .ok tx => .ok (tx, rest)

/-- The three constructors succeed on `tx` and its serialization, with equal fields, equal
serializations and the hash of `tx`.
-/
def ConstructorsAgree (memory : Memory) (tx : CMutableTransaction) : Prop :=
  ∃ bytes copied moved read,
    tx.serialize = .ok bytes
    ∧ CTransaction.copy sha256d tx = .ok copied
    ∧ CTransaction.move sha256d tx = .ok moved
    ∧ CTransaction.deserialize sha256d memory bytes = .ok (read, [])
    ∧ copied.toCMutableTransaction = moved.toCMutableTransaction
    ∧ copied.toCMutableTransaction = read.toCMutableTransaction
    ∧ copied.serialize = moved.serialize
    ∧ copied.serialize = read.serialize
    ∧ tx.getHash sha256d = .ok copied.getHash
    ∧ tx.getHash sha256d = .ok moved.getHash
    ∧ tx.getHash sha256d = .ok read.getHash

variable {sha256d} {tx : CMutableTransaction}

theorem CTransaction.copy_ok {bytes} (written : tx.serialize = .ok bytes)
    : copy sha256d tx = .ok { tx with hash := sha256d bytes } := by
  simp only [copy, updateHash]
  rw [written]
  rfl

theorem CTransaction.copy_fields {copied} (run : copy sha256d tx = .ok copied)
    : copied.toCMutableTransaction = tx := by
  obtain ⟨_, _, ⟨⟩⟩ := Lib.Checks.bind_ok.mp run
  rfl

theorem CTransaction.move_fields {moved} (run : move sha256d tx = .ok moved)
    : moved.toCMutableTransaction = { tx with bindingSig := zeroBytes 64 } := by
  exact copy_fields run

theorem CTransaction.deserialize_fields {memory stream rest read}
    (run : deserialize sha256d memory stream = .ok (read, rest))
    : ∃ tx, (uninitialized memory).unserialize stream = .ok (tx, rest)
      ∧ read.toCMutableTransaction = { tx with bindingSig := zeroBytes 64 } := by
  unfold deserialize at run
  split at run
  · cases run
  next tx middle parsed =>
    split at run
    · cases run
    next moved built =>
      cases run
      exact ⟨tx, parsed, move_fields built⟩

theorem CMutableTransaction.clear_bindingSig (cleared : tx.bindingSig = zeroBytes 64)
    : { tx with bindingSig := zeroBytes 64 } = tx := by
  rw [← cleared]

/-- Copy and move only agree on a zero binding signature. -/
theorem ConstructorsAgree.bindingSig_eq {memory} (agree : ConstructorsAgree sha256d memory tx)
    : tx.bindingSig = zeroBytes 64 := by
  obtain ⟨bytes, copied, moved, read, written, copyRun, moveRun, readRun, same, -⟩ := agree
  rw [CTransaction.copy_fields copyRun, CTransaction.move_fields moveRun] at same
  rw [same]

/-- The constructors agree on exactly the transactions that one of the three formats can
carry, whose binding signature is zero, and whose fields outside the format happen to hold
what the memory of the new object did.
-/
theorem constructorsAgree_iff (sha256d : Bytes → Uint256) (memory : Memory)
    (tx : CMutableTransaction)
    : ConstructorsAgree sha256d memory tx
      ↔ tx.AcceptedHeader ∧ tx.WithinMaxSize ∧ tx.ProofsMatch
        ∧ tx.bindingSig = zeroBytes 64
        ∧ CMutableTransaction.AbsentAs (.uninitialized memory) tx := by
  constructor
  · intro agree
    have cleared := agree.bindingSig_eq
    obtain ⟨bytes, copied, moved, read, written, copyRun, moveRun, readRun, -, sameRead, -⟩ := agree
    rw [CTransaction.copy_fields copyRun] at sameRead
    obtain ⟨parsed, run, fields⟩ := CTransaction.deserialize_fields readRun
    rw [fields] at sameRead
    obtain ⟨accepted, sized, proofs⟩ := returns_unserialize _ _ _ _ run
    have accepted : tx.AcceptedHeader := by rw [sameRead]; exact accepted
    have sized : tx.WithinMaxSize := by
      rw [sameRead]
      exact { sized with }
    have proofs : tx.ProofsMatch := by rw [sameRead]; exact proofs
    refine ⟨accepted, sized, proofs, cleared, ?_⟩
    -- What was parsed is `tx` on top of the memory, so only the signature can differ.
    obtain ⟨again, rewritten, reads⟩ := reads_onto accepted sized proofs (.uninitialized memory)
    rw [written] at rewritten
    cases rewritten
    have whole := reads []
    rw [List.append_nil, run] at whole
    simp only [Except.ok.injEq, Prod.mk.injEq, and_true] at whole
    rw [whole, clear_bindingSig (by simp [onto, cleared, uninitialized])] at sameRead
    exact sameRead.symm
  · rintro ⟨accepted, sized, proofs, cleared, absent⟩
    obtain ⟨bytes, written, reads⟩ := reads_onto accepted sized proofs (.uninitialized memory)
    have whole := reads []
    rw [absent, List.append_nil] at whole
    have copyRun : CTransaction.copy sha256d tx = .ok { tx with hash := sha256d bytes } :=
      CTransaction.copy_ok written
    have moveRun : CTransaction.move sha256d tx = .ok { tx with hash := sha256d bytes } := by
      exact (congrArg (CTransaction.copy sha256d) (clear_bindingSig cleared)).trans copyRun
    have readRun : CTransaction.deserialize sha256d memory bytes
        = .ok ({ tx with hash := sha256d bytes }, []) := by
      simp only [CTransaction.deserialize, whole, moveRun]
    have hash : tx.getHash sha256d = .ok (sha256d bytes) := by
      rw [getHash, written]
      rfl
    exact ⟨bytes, _, _, _, written, copyRun, moveRun, readRun, rfl, rfl, rfl, rfl, hash, hash, hash⟩

/-- Moving the shielded spend drops its binding signature: the result has another
serialization, of which it caches the hash, so the constructors disagree.
-/
theorem saplingSpend_move
    : ∃ bytes, CMutableTransaction.saplingSpend.serialize = .ok bytes
      ∧ ∀ sha256d : Bytes → Uint256, ∃ moved movedBytes,
        CMutableTransaction.saplingSpend.getHash sha256d = .ok (sha256d bytes)
        ∧ CTransaction.move sha256d CMutableTransaction.saplingSpend = .ok moved
        ∧ moved.bindingSig ≠ CMutableTransaction.saplingSpend.bindingSig
        ∧ moved.serialize = .ok movedBytes ∧ movedBytes ≠ bytes
        ∧ moved.getHash = sha256d movedBytes
        ∧ ∀ memory, ¬ ConstructorsAgree sha256d memory CMutableTransaction.saplingSpend := by
  have wire := saplingSpend_wire
  have clearedWire
      : ({ saplingSpend with bindingSig := zeroBytes 64 }
          : CMutableTransaction).Wire := {
    accepted := wire.accepted
    absent := rfl
    sized := { wire.sized with }
    proofs := wire.proofs
  }
  have differ : zeroBytes 64 ≠ saplingSpend.bindingSig := by decide
  obtain ⟨bytes, written, read⟩ := wire.reads
  obtain ⟨movedBytes, movedWritten, movedRead⟩ := clearedWire.reads
  refine ⟨bytes, written, fun sha256d => ?_⟩
  refine ⟨_, movedBytes, ?_, CTransaction.copy_ok movedWritten, differ, movedWritten, ?_, rfl, ?_⟩
  · rw [getHash, written]
    rfl
  · rintro rfl
    have same := (movedRead.eq_of_isPrefix read (List.prefix_rfl)).1
    exact differ (congrArg bindingSig same)
  · intro memory agree
    exact differ agree.bindingSig_eq.symm

end Constructors

end Resistance.Primitives

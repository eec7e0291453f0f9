import Resistance.Primitives.WireFormat

/-! Reading a serialized transaction gives it back and leaves what follows it in the stream,
and whatever is read satisfies the limits of the format.
-/

namespace Resistance.Primitives

open Lib.Codec

variable {n : Nat}

theorem reads_bytes (item : List.Vector UInt8 n)
    : Reads (unserializeBytes n) (serializeBytes item) item :=
  reads_array item reads8

theorem reads_hashes (item : List.Vector Uint256 n)
    : Reads (unserializeArray (unserializeBytes 32) n) (serializeArray serializeBytes item)
        item :=
  reads_array item reads_bytes

/-- A point is read back when the mask leaves room for the sign in its lowest bit. -/
theorem reads_point {mask} (unrecognized : String) (y : Bool) (x : List.Vector UInt8 n)
    (clear : ∀ y : Bool, (if y then mask ||| 1 else mask) &&& ~~~1 = mask
      ∧ ((if y then mask ||| 1 else mask) &&& 1 != 0) = y)
    : Reads (unserializePoint mask unrecognized n) (serializePoint mask y x) (y, x) := by
  obtain ⟨recognized, sign⟩ := clear y
  refine (reads8 _).bind ?_
  rw [if_neg (not_not.mpr recognized), sign]
  exact (reads_bytes x).map

theorem CompressedG1.reads (point : CompressedG1)
    : Reads CompressedG1.unserialize point.serialize point :=
  (reads_point _ point.yLsb point.x (by decide)).map

theorem CompressedG2.reads (point : CompressedG2)
    : Reads CompressedG2.unserialize point.serialize point :=
  (reads_point _ point.yGt point.x (by decide)).map

theorem PHGRProof.reads (proof : PHGRProof)
    : Reads PHGRProof.unserialize proof.serialize proof :=
  (CompressedG1.reads _).bind <| (CompressedG1.reads _).bind <|
    (CompressedG2.reads _).bind <| (CompressedG1.reads _).bind <|
    (CompressedG1.reads _).bind <| (CompressedG1.reads _).bind <|
    (CompressedG1.reads _).bind (CompressedG1.reads _).map

/-- A proof of the format's kind is written and read back. -/
theorem SproutProof.reads {useGroth proof} (kind : proof.isGroth = useGroth)
    : ∃ bytes, proof.serialize useGroth = .ok bytes
      ∧ Reads (SproutProof.unserialize useGroth) bytes proof := by
  subst kind
  cases proof with
  | phgr proof => exact ⟨_, rfl, proof.reads.map⟩
  | groth proof => exact ⟨_, rfl, (reads_bytes proof).map⟩

theorem SpendDescription.reads (spend : SpendDescription)
    : Reads SpendDescription.unserialize spend.serialize spend :=
  (reads_bytes _).bind <| (reads_bytes _).bind <| (reads_bytes _).bind <|
    (reads_bytes _).bind <| (reads_bytes _).bind (reads_bytes _).map

theorem OutputDescription.reads (output : OutputDescription)
    : Reads OutputDescription.unserialize output.serialize output :=
  (reads_bytes _).bind <| (reads_bytes _).bind <| (reads_bytes _).bind <|
    (reads_bytes _).bind <| (reads_bytes _).bind (reads_bytes _).map

theorem JSDescription.reads {version joinsplit}
    (kind : joinsplit.proof.isGroth = JSDescription.useGroth version)
    : ∃ bytes, joinsplit.serialize version = .ok bytes
      ∧ Reads (JSDescription.unserialize version) bytes joinsplit := by
  obtain ⟨proof, written, read⟩ := SproutProof.reads kind
  refine ⟨joinsplit.serializeWith proof, ?_, ?_⟩
  · rw [JSDescription.serialize, written]
    rfl
  · exact (readsInt64 _).bind <| (readsInt64 _).bind <| (reads_bytes _).bind <|
      (reads_hashes _).bind <| (reads_hashes _).bind <| (reads_bytes _).bind <|
      (reads_bytes _).bind <| (reads_hashes _).bind <| read.bind
      (reads_array _ reads_bytes).map

theorem COutPoint.reads (prevout : COutPoint)
    : Reads COutPoint.unserialize prevout.serialize prevout :=
  (reads_bytes _).bind (reads32 _).map

theorem CScript.reads {script} (bound : script.length ≤ maxSize.toNat)
    : Reads CScript.unserialize (CScript.serialize script) script :=
  reads_vector bound (fun b _ => reads8 b)

theorem CTxIn.reads {txin} (bound : txin.scriptSig.length ≤ maxSize.toNat)
    : Reads CTxIn.unserialize txin.serialize txin :=
  (COutPoint.reads _).bind <| (CScript.reads bound).bind (reads32 _).map

theorem CTxOut.reads {txout} (bound : txout.scriptPubKey.length ≤ maxSize.toNat)
    : Reads CTxOut.unserialize txout.serialize txout :=
  (readsInt64 _).bind (CScript.reads bound).map

namespace CMutableTransaction

/-- The header is that of a Sprout, Overwinter or Sapling transaction. -/
def AcceptedHeader (tx : CMutableTransaction) : Prop :=
  (tx.fOverwintered = false ∧ 0 ≤ tx.nVersion)
    ∨ tx.isOverwinterV3 = true ∨ tx.isSaplingV4 = true

/-- No vector that the format contains is longer than `MAX_SIZE`. -/
structure WithinMaxSize (tx : CMutableTransaction) : Prop where
  vin : tx.vin.length ≤ maxSize.toNat
  scriptSig : ∀ txin ∈ tx.vin, txin.scriptSig.length ≤ maxSize.toNat
  vout : tx.vout.length ≤ maxSize.toNat
  scriptPubKey : ∀ txout ∈ tx.vout, txout.scriptPubKey.length ≤ maxSize.toNat
  vShieldedSpend : tx.isSaplingV4 = true → tx.vShieldedSpend.length ≤ maxSize.toNat
  vShieldedOutput : tx.isSaplingV4 = true → tx.vShieldedOutput.length ≤ maxSize.toNat
  vJoinSplit : 2 ≤ tx.nVersion → tx.vJoinSplit.length ≤ maxSize.toNat

/-- Every JoinSplit in the format has a proof of the kind that the format uses. -/
def ProofsMatch (tx : CMutableTransaction) : Prop :=
  2 ≤ tx.nVersion → ∀ joinsplit ∈ tx.vJoinSplit, joinsplit.proof.isGroth = tx.isSaplingV4

/-- `tx` with the fields that its format leaves out taken from `self`. -/
def onto (tx self : CMutableTransaction) : CMutableTransaction :=
  let hasJoinSplits : Bool := 2 ≤ tx.nVersion && tx.vJoinSplit.length > 0
  {
    tx with
    nVersionGroupId := if tx.fOverwintered then tx.nVersionGroupId else self.nVersionGroupId
    nExpiryHeight :=
      if tx.isOverwinterV3 || tx.isSaplingV4 then tx.nExpiryHeight else self.nExpiryHeight
    valueBalance := if tx.isSaplingV4 then tx.valueBalance else self.valueBalance
    vShieldedSpend := if tx.isSaplingV4 then tx.vShieldedSpend else self.vShieldedSpend
    vShieldedOutput := if tx.isSaplingV4 then tx.vShieldedOutput else self.vShieldedOutput
    vJoinSplit := if 2 ≤ tx.nVersion then tx.vJoinSplit else self.vJoinSplit
    joinSplitPubKey := if hasJoinSplits then tx.joinSplitPubKey else self.joinSplitPubKey
    joinSplitSig := if hasJoinSplits then tx.joinSplitSig else self.joinSplitSig
    bindingSig := if tx.hasBindingSig then tx.bindingSig else self.bindingSig
  }

/-- The fields that the format of `tx` leaves out hold what they hold in `self`. -/
def AbsentAs (self tx : CMutableTransaction) : Prop :=
  tx.onto self = tx

variable {tx : CMutableTransaction}

theorem isOverwinterV3_iff
    : tx.isOverwinterV3 = true ↔ tx.fOverwintered = true
      ∧ tx.nVersionGroupId = overwinterVersionGroupId
      ∧ tx.nVersion = overwinterTxVersion := by
  simp [isOverwinterV3, and_assoc]

theorem isSaplingV4_iff
    : tx.isSaplingV4 = true ↔ tx.fOverwintered = true
      ∧ tx.nVersionGroupId = saplingVersionGroupId
      ∧ tx.nVersion = saplingTxVersion := by
  simp [isSaplingV4, and_assoc]

/-- A non-negative version has a clear sign bit. -/
theorem toUInt32_lt_of_nonneg {nVersion : Int32} (nonneg : 0 ≤ nVersion)
    : nVersion.toUInt32.toNat < 2 ^ 31 := by
  rw [Int32.le_iff_toInt_le] at nonneg
  have unsigned : nVersion.toInt = Int.bmod nVersion.toUInt32.toNat (2 ^ 32) := by
    rw [← Int32.toInt_toBitVec, BitVec.toInt_eq_toNat_bmod]
    rfl
  have bound := nVersion.toUInt32.toNat_lt
  rw [Int.bmod_def] at unsigned
  simp at nonneg
  omega

theorem header_unpacked (accepted : tx.AcceptedHeader)
    : (tx.getHeader >>> 31 != 0) = tx.fOverwintered
      ∧ (tx.getHeader &&& 0x7FFFFFFF).toInt32 = tx.nVersion := by
  rcases accepted with ⟨sprout, nonneg⟩ | overwinter | sapling
  · have small := toUInt32_lt_of_nonneg nonneg
    have header : tx.getHeader = tx.nVersion.toUInt32 := by simp [getHeader, sprout]
    have shifted : tx.nVersion.toUInt32 >>> 31 = 0 := by
      rw [← UInt32.toNat_inj]
      exact Nat.shiftRight_eq_zero _ _ small
    have masked : tx.nVersion.toUInt32 &&& 0x7FFFFFFF = tx.nVersion.toUInt32 := by
      rw [← UInt32.toNat_inj, UInt32.toNat_and]
      have mask : (0x7FFFFFFF : UInt32).toNat = 2 ^ 31 - 1 := rfl
      rw [mask, Nat.and_two_pow_sub_one_eq_mod, Nat.mod_eq_of_lt small]
    rw [header, shifted, masked, sprout]
    exact ⟨rfl, rfl⟩
  · obtain ⟨overwintered, -, version⟩ := isOverwinterV3_iff.mp overwinter
    simp only [getHeader, overwintered, version]
    decide
  · obtain ⟨overwintered, -, version⟩ := isSaplingV4_iff.mp sapling
    simp only [getHeader, overwintered, version]
    decide

/-- Groth proofs are used in Sapling transactions only. -/
theorem useGroth_getHeader (accepted : tx.AcceptedHeader)
    : JSDescription.useGroth tx.getHeader.toInt32 = tx.isSaplingV4 := by
  rcases accepted with ⟨sprout, nonneg⟩ | overwinter | sapling
  · have header : tx.getHeader = tx.nVersion.toUInt32 := by simp [getHeader, sprout]
    have sign : tx.nVersion >>> 31 = 0 := by
      have shifted : (tx.nVersion >>> 31).toInt = tx.nVersion.toInt >>> (31 : Nat) :=
        BitVec.toInt_sshiftRight
      have upper := tx.nVersion.toInt_lt
      rw [Int32.le_iff_toInt_le] at nonneg
      rw [← Int32.toInt_inj, shifted, Int.shiftRight_eq_div_pow]
      exact Int.ediv_eq_zero_of_lt nonneg upper
    simp [JSDescription.useGroth, header, sign, isSaplingV4, sprout]
  · obtain ⟨overwintered, -, version⟩ := isOverwinterV3_iff.mp overwinter
    have other : (overwinterTxVersion == saplingTxVersion) = false := by decide
    simp only [getHeader, isSaplingV4, overwintered, version, other, Bool.and_false]
    decide
  · obtain ⟨overwintered, -, version⟩ := isSaplingV4_iff.mp sapling
    rw [sapling]
    simp only [getHeader, overwintered, version]
    decide

section Stages

variable {tx self : CMutableTransaction}

/-- The two objects are of the same format. -/
structure SameHeader (left right : CMutableTransaction) : Prop where
  fOverwintered : left.fOverwintered = right.fOverwintered
  nVersion : left.nVersion = right.nVersion
  nVersionGroupId
    : right.fOverwintered = true → left.nVersionGroupId = right.nVersionGroupId

theorem SameHeader.format (same : SameHeader self tx)
    : self.isOverwinterV3 = tx.isOverwinterV3 ∧ self.isSaplingV4 = tx.isSaplingV4 := by
  unfold isOverwinterV3 isSaplingV4
  rw [same.fOverwintered, same.nVersion]
  cases overwintered : tx.fOverwintered with
  | false => exact ⟨rfl, rfl⟩
  | true =>
    rw [same.nVersionGroupId overwintered]
    exact ⟨rfl, rfl⟩

/-- `self` once the header of `tx` has been read into it. -/
def withHeader (tx self : CMutableTransaction) : CMutableTransaction :=
  {
    self with
    fOverwintered := tx.fOverwintered
    nVersion := tx.nVersion
    nVersionGroupId := if tx.fOverwintered then tx.nVersionGroupId else self.nVersionGroupId
  }

theorem reads_version (accepted : tx.AcceptedHeader)
    : Reads (self.unserializeVersion tx.getHeader) tx.serializeVersion
        (tx.withHeader self) := by
  obtain ⟨overwintered, version⟩ := header_unpacked accepted
  simp only [unserializeVersion, serializeVersion, withHeader, overwintered, version]
  split
  · exact (reads32 _).map
  · exact Reads.pure _

theorem reads_transparent (sized : tx.WithinMaxSize)
    : Reads self.unserializeTransparent tx.serializeTransparent
        { self with vin := tx.vin, vout := tx.vout, nLockTime := tx.nLockTime } :=
  (reads_vector sized.vin (fun _ mem => CTxIn.reads (sized.scriptSig _ mem))).bind <|
    (reads_vector sized.vout
      (fun _ mem => CTxOut.reads (sized.scriptPubKey _ mem))).bind (reads32 _).map

theorem reads_expiryHeight (same : SameHeader self tx)
    : Reads self.unserializeExpiryHeight tx.serializeExpiryHeight
        { self with
          nExpiryHeight :=
            if tx.isOverwinterV3 || tx.isSaplingV4 then tx.nExpiryHeight
            else self.nExpiryHeight } := by
  unfold unserializeExpiryHeight serializeExpiryHeight
  rw [same.format.1, same.format.2]
  split
  · exact (reads32 _).map
  · exact Reads.pure _

theorem reads_shielded (sized : tx.WithinMaxSize) (same : SameHeader self tx)
    : Reads self.unserializeShielded tx.serializeShielded
        { self with
          valueBalance := if tx.isSaplingV4 then tx.valueBalance else self.valueBalance
          vShieldedSpend := if tx.isSaplingV4 then tx.vShieldedSpend else self.vShieldedSpend
          vShieldedOutput :=
            if tx.isSaplingV4 then tx.vShieldedOutput else self.vShieldedOutput } := by
  unfold unserializeShielded serializeShielded
  rw [same.format.2]
  split
  next sapling =>
    exact (readsInt64 _).bind <|
      (reads_vector (sized.vShieldedSpend sapling)
        (fun spend _ => spend.reads)).bind <|
      (reads_vector (sized.vShieldedOutput sapling) (fun output _ => output.reads)).map
  · exact Reads.pure _

/-- The JoinSplits of the format are written one after the other and read back. -/
theorem reads_vJoinSplit {version joinsplits} (bound : joinsplits.length ≤ maxSize.toNat)
    (kinds : ∀ joinsplit ∈ joinsplits, joinsplit.proof.isGroth = JSDescription.useGroth version)
    : ∃ written, joinsplits.mapM (JSDescription.serialize version) = .ok written
      ∧ Reads (unserializeVector (JSDescription.unserialize version))
          (serializeVector id written) joinsplits := by
  have each (joinsplit : JSDescription) (mem : joinsplit ∈ joinsplits) :=
    JSDescription.reads (kinds joinsplit mem)
  choose! write written read using each
  refine ⟨joinsplits.map write, mapM_ok written, ?_⟩
  have items := reads_vector bound read
  simpa only [serializeVector, List.length_map, List.flatMap_map, id_eq] using items

theorem reads_joinSplits (accepted : tx.AcceptedHeader) (sized : tx.WithinMaxSize)
    (proofs : tx.ProofsMatch)
    : ∃ bytes, tx.serializeJoinSplits = .ok bytes
      ∧ ∀ self : CMutableTransaction, SameHeader self tx →
        Reads (self.unserializeJoinSplits tx.getHeader) bytes
          { self with
            vJoinSplit := if 2 ≤ tx.nVersion then tx.vJoinSplit else self.vJoinSplit
            joinSplitPubKey :=
              if 2 ≤ tx.nVersion && tx.vJoinSplit.length > 0 then tx.joinSplitPubKey
              else self.joinSplitPubKey
            joinSplitSig :=
              if 2 ≤ tx.nVersion && tx.vJoinSplit.length > 0 then tx.joinSplitSig
              else self.joinSplitSig } := by
  by_cases present : 2 ≤ tx.nVersion
  · have kinds (joinsplit : JSDescription) (mem : joinsplit ∈ tx.vJoinSplit)
        : joinsplit.proof.isGroth = JSDescription.useGroth tx.getHeader.toInt32 := by
      rw [useGroth_getHeader accepted]
      exact proofs present joinsplit mem
    obtain ⟨written, listed, read⟩ := reads_vJoinSplit (sized.vJoinSplit present) kinds
    refine ⟨_, by rw [serializeJoinSplits, if_pos present, listed]; rfl, ?_⟩
    intro self same
    rw [unserializeJoinSplits, if_pos (same.nVersion ▸ present)]
    refine read.bind ?_
    by_cases some_ : tx.vJoinSplit.length > 0
    · simp only [some_, present]
      exact (reads_bytes _).bind (reads_bytes _).map
    · simp only [some_, present]
      exact Reads.pure _
  · refine ⟨[], by rw [serializeJoinSplits, if_neg present]; rfl, ?_⟩
    intro self same
    rw [unserializeJoinSplits, if_neg (same.nVersion ▸ present)]
    simp only [present]
    exact Reads.pure _

theorem reads_bindingSig (same : self.hasBindingSig = tx.hasBindingSig)
    : Reads self.unserializeBindingSig tx.serializeBindingSig
        { self with
          bindingSig := if tx.hasBindingSig then tx.bindingSig else self.bindingSig } := by
  unfold unserializeBindingSig serializeBindingSig
  rw [same]
  split
  · exact (reads_bytes _).map
  · exact Reads.pure _

end Stages

/-- Reading a serialized transaction into `self` gives the transaction, up to the fields
that its format leaves out, and stops at its end.
-/
theorem reads_onto (accepted : tx.AcceptedHeader) (sized : tx.WithinMaxSize)
    (proofs : tx.ProofsMatch) (self : CMutableTransaction)
    : ∃ bytes, tx.serialize = .ok bytes ∧ Reads self.unserialize bytes (tx.onto self) := by
  obtain ⟨joinsplits, written, readJoinSplits⟩ := reads_joinSplits accepted sized proofs
  have known : ¬ (tx.fOverwintered && !(tx.isOverwinterV3 || tx.isSaplingV4)) = true := by
    rcases accepted with ⟨sprout, -⟩ | overwinter | sapling <;> simp_all
  refine ⟨_, by rw [serialize, if_neg known, written]; rfl, ?_⟩
  refine (reads32 _).bind ((reads_version accepted).bind ?_)
  -- Later stages do not touch the header, so they read the format of `tx`.
  have header : SameHeader (tx.withHeader self) tx := ⟨rfl, rfl, fun present => if_pos present⟩
  obtain ⟨format, sapling⟩ := header.format
  rw [header.fOverwintered, format, sapling, if_neg known]
  refine (reads_transparent sized).bind ?_
  refine Reads.bind (reads_expiryHeight ?_) ?_
  · exact ⟨rfl, rfl, header.nVersionGroupId⟩
  refine Reads.bind (reads_shielded sized ?_) ?_
  · exact ⟨rfl, rfl, header.nVersionGroupId⟩
  refine Reads.bind (readJoinSplits _ ?_) ?_
  · exact ⟨rfl, rfl, header.nVersionGroupId⟩
  refine reads_bindingSig ?_
  have spends : (tx.isSaplingV4 && !((if tx.isSaplingV4 then tx.vShieldedSpend
        else self.vShieldedSpend).isEmpty
      && (if tx.isSaplingV4 then tx.vShieldedOutput else self.vShieldedOutput).isEmpty))
      = tx.hasBindingSig := by
    cases present : tx.isSaplingV4 <;> simp [hasBindingSig, present]
  exact (congrArg (· && _) sapling).trans spends

/-- A transaction that the format can carry: an accepted header, defaults in the fields that
the format leaves out, vectors within `MAX_SIZE` and proofs of the right kind.
-/
structure Wire (tx : CMutableTransaction) : Prop where
  accepted : tx.AcceptedHeader
  absent : AbsentAs {} tx
  sized : tx.WithinMaxSize
  proofs : tx.ProofsMatch

theorem Wire.reads (wire : tx.Wire)
    : ∃ bytes, tx.serialize = .ok bytes
      ∧ Reads ({} : CMutableTransaction).unserialize bytes tx := by
  obtain ⟨bytes, written, read⟩ := reads_onto wire.accepted wire.sized wire.proofs {}
  exact ⟨bytes, written, wire.absent ▸ read⟩

/-- Transactions that the format can carry survive serialization followed by any suffix, and
no two of them have serializations of which one starts with the other.
-/
theorem unserialize_serialize {tx other : CMutableTransaction} (wire : tx.Wire)
    (otherWire : other.Wire)
    : (∃ bytes, tx.serialize = .ok bytes
        ∧ ∀ suffix, ({} : CMutableTransaction).unserialize (bytes ++ suffix)
          = .ok (tx, suffix))
      ∧ (tx ≠ other → ∀ bytes otherBytes, tx.serialize = .ok bytes →
          other.serialize = .ok otherBytes → ¬ bytes <+: otherBytes) := by
  obtain ⟨bytes, written, read⟩ := wire.reads
  obtain ⟨otherBytes, otherWritten, otherRead⟩ := otherWire.reads
  refine ⟨⟨bytes, written, read⟩, ?_⟩
  rintro distinct _ _ here there start
  rw [written] at here
  rw [otherWritten] at there
  cases here
  cases there
  exact distinct (read.eq_of_isPrefix otherRead start).1

/-- A shielded spend with its binding signature, in the Sapling format. -/
def saplingSpend : CMutableTransaction where
  fOverwintered := true
  nVersion := saplingTxVersion
  nVersionGroupId := saplingVersionGroupId
  vShieldedSpend := [{}]
  bindingSig := List.Vector.replicate 64 1

theorem saplingSpend_wire : saplingSpend.Wire where
  accepted := .inr (.inr rfl)
  absent := rfl
  sized := by constructor <;> decide
  proofs := by simp [ProofsMatch, saplingSpend]

theorem default_wire : ({} : CMutableTransaction).Wire where
  accepted := .inl ⟨rfl, by decide⟩
  absent := rfl
  sized := by constructor <;> decide
  proofs := by simp [ProofsMatch]

theorem unserialize_serialize_saplingSpend
    : saplingSpend.Wire ∧ ({} : CMutableTransaction).Wire
      ∧ ((∃ bytes, saplingSpend.serialize = .ok bytes
          ∧ ∀ suffix, ({} : CMutableTransaction).unserialize (bytes ++ suffix)
            = .ok (saplingSpend, suffix))
        ∧ (saplingSpend ≠ {} → ∀ bytes otherBytes, saplingSpend.serialize = .ok bytes →
            ({} : CMutableTransaction).serialize = .ok otherBytes →
              ¬ bytes <+: otherBytes)) :=
  ⟨saplingSpend_wire, default_wire, unserialize_serialize saplingSpend_wire default_wire⟩

/-- An input script one byte longer than `MAX_SIZE`. -/
def longScriptInput : CTxIn :=
  { scriptSig := List.replicate (maxSize.toNat + 1) 0 }

def longScript : CMutableTransaction where
  vin := [longScriptInput]

theorem longScriptInput_throws
    : Throws CTxIn.unserialize longScriptInput.serialize
        "ReadCompactSize(): size too large" := by
  have length : longScriptInput.scriptSig.length = maxSize.toNat + 1 := List.length_replicate
  refine (COutPoint.reads _).bindThrows (((throws_compactSize ?_).bind _ _).bind _ _)
  rw [length]
  decide

/-- The writer has no size limit: a script longer than `MAX_SIZE` is written but cannot be
read back.
-/
theorem longScript_throws
    : longScript.AcceptedHeader ∧ AbsentAs {} longScript ∧ longScript.ProofsMatch
      ∧ ∃ bytes, longScript.serialize = .ok bytes
        ∧ ∀ suffix, ({} : CMutableTransaction).unserialize (bytes ++ suffix)
          = .error "ReadCompactSize(): size too large" := by
  have accepted : longScript.AcceptedHeader := .inl ⟨rfl, by decide⟩
  refine ⟨accepted, rfl, by simp [ProofsMatch, longScript], _, rfl, ?_⟩
  refine (reads32 _).bindThrows ((reads_version accepted).bindThrows ?_)
  have vector := throws_vector_head (v := []) (by simp [maxSize]) longScriptInput_throws
  have transparent : Throws (longScript.withHeader {}).unserializeTransparent
      longScript.serializeTransparent "ReadCompactSize(): size too large" :=
    vector.bind _ _
  exact transparent.bind _ _

end CMutableTransaction

end Resistance.Primitives

import Resistance.Primitives.MerkleRoot
import Resistance.Validation.ConnectBlock

/-! A header is not condemned because it came with the wrong transactions. Of two blocks with one
header, at most one has a transaction list that the header commits to without a repetition, and
`CheckBlock` sets the corruption flag for the other before it looks at a transaction.
-/

namespace Resistance.Validation

open Primitives Consensus Lib.PairTree Lib.Checks List

/-- The double SHA-256 does not collide on the pairs of two transaction trees, and none of
these pairs hashes to a txid.
-/
structure NoMerkleCollision (hash : Bytes → Uint256) (left right : List Uint256) : Prop where
  injective : Set.InjOn (Function.uncurry (pairHash hash))
    {p | p ∈ merklePairs hash left ∨ p ∈ merklePairs hash right}
  noTxid : ∀ p, p ∈ merklePairs hash left ∨ p ∈ merklePairs hash right
    → pairHash hash p.1 p.2 ∉ left ∧ pairHash hash p.1 p.2 ∉ right

/-- Neither a txid nor the hash of a pair is the hash that stands for an empty tree. -/
structure NoNullHash (hash : Bytes → Uint256) (txids : List Uint256) : Prop where
  txid : .null ∉ txids
  node : ∀ p ∈ merklePairs hash txids, pairHash hash p.1 p.2 ≠ .null

section Roots

variable {hash : Bytes → Uint256} {left right : List Uint256}

/-- The root is a txid or the hash of a pair. -/
theorem NoNullHash.root_ne_null {txids} (notNull : NoNullHash hash txids) (nonempty : txids ≠ [])
    : merkleRoot hash txids ≠ .null := by
  have head : (level (pairHash hash) (treeHeight txids.length) txids)[0]?
      = some (merkleRoot hash txids) := by
    rw [level_eq_root hash nonempty]
    rfl
  rcases head_level_cases head with listed | ⟨p, mem, hashed⟩
  · intro null
    exact notNull.txid (null ▸ listed)
  · exact hashed ▸ notNull.node p mem

theorem merkleMutated_of_repeats {txids k} (below : k < treeHeight txids.length)
    (found : repeats (level (pairHash hash) k txids) = true)
    : merkleMutated hash txids = true :=
  any_eq_true.mpr ⟨k, mem_range.mpr below, found⟩

/-- Different lists with the same root have different lengths, and the longer one is reported
as mutated.
-/
theorem mutated_of_root_eq (free : NoMerkleCollision hash left right)
    (leftNotNull : NoNullHash hash left) (rightNotNull : NoNullHash hash right)
    (different : left ≠ right) (same : merkleRoot hash left = merkleRoot hash right)
    : left.length < right.length ∧ merkleMutated hash right = true
      ∨ right.length < left.length ∧ merkleMutated hash left = true := by
  by_cases leftEmpty : left = []
  · subst leftEmpty
    exact absurd same.symm (rightNotNull.root_ne_null (Ne.symm different))
  by_cases rightEmpty : right = []
  · subst rightEmpty
    exact absurd same (leftNotNull.root_ne_null different)
  have leftRoot := level_eq_root hash leftEmpty
  have rightRoot := level_eq_root hash rightEmpty
  rw [← same] at rightRoot
  rcases eq_or_repeats_of_root_eq free.injective leftEmpty rightEmpty
    (fun p mem => .inl mem) (fun p mem => .inr mem) free.noTxid leftRoot rightRoot
    with equal | ⟨longer, k, below, found⟩ | ⟨longer, k, below, found⟩
  · exact absurd equal different
  · exact .inl ⟨longer, merkleMutated_of_repeats below found⟩
  · exact .inr ⟨longer, merkleMutated_of_repeats below found⟩

end Roots

section CheckBlock

variable {env : Environment} {hashes : Hashes} {block : CBlock} {strict fCheckPOW : Bool}

theorem checkMerkleRoot_eq
    : checkMerkleRoot hashes block
      = if block.hashMerkleRoot ≠ merkleRoot hashes.hash block.txids then
          .error (dos 100 rejectInvalid "bad-txnmrklroot" true)
        else if merkleMutated hashes.hash block.txids = true then
          .error (dos 100 rejectInvalid "bad-txns-duplicate" true)
        else .ok () := by
  simp only [checkMerkleRoot, CBlock.buildMerkleTree_eq, throwIf]
  split
  · rfl
  · rfl

/-- The Merkle check fails only with the corruption flag. -/
theorem checkMerkleRoot_flagged {failure} (run : checkMerkleRoot hashes block = .error failure)
    : failure.corruptionPossible = true := by
  rw [checkMerkleRoot_eq] at run
  split at run
  · cases run
    rfl
  · split at run
    · cases run
      rfl
    · cases run

theorem checkMerkleRoot_ok (run : checkMerkleRoot hashes block = .ok ())
    : block.hashMerkleRoot = merkleRoot hashes.hash block.txids
      ∧ merkleMutated hashes.hash block.txids = false := by
  rw [checkMerkleRoot_eq] at run
  split at run
  · cases run
  next same =>
    split at run
    · cases run
    · next once => exact ⟨not_not.mp same, Bool.not_eq_true _ ▸ once⟩

/-- Once the header has passed, a failed Merkle check decides. -/
theorem checkBlock_of_checkMerkleRoot {failure}
    (header : checkBlockHeader env block.toCBlockHeader fCheckPOW = .ok ())
    (run : checkMerkleRoot hashes block = .error failure)
    : checkBlock env hashes block strict fCheckPOW true = .error failure := by
  simp only [checkBlock, header, run]
  rfl

end CheckBlock

/-- A header is never condemned because of the wrong transactions. Of two blocks with the same
header and different txids, if one is rejected and the failure is not put down to corruption,
the other is rejected with the corruption flag; and lists with the same root differ in length,
the longer one being reported as mutated.
-/
theorem header_not_condemned {env other : Environment} {hashes : Hashes} {a b : CBlock}
    {fCheckPOW fCheckPOWOther : Bool} (strict strictOther : Bool)
    (sameHeader : a.toCBlockHeader = b.toCBlockHeader)
    (header : checkBlockHeader env a.toCBlockHeader fCheckPOW = .ok ())
    (headerOther : checkBlockHeader other b.toCBlockHeader fCheckPOWOther = .ok ())
    (different : a.txids ≠ b.txids) (free : NoMerkleCollision hashes.hash a.txids b.txids)
    (notNull : NoNullHash hashes.hash a.txids) (notNullOther : NoNullHash hashes.hash b.txids)
    : (∀ failure, checkBlock env hashes a strict fCheckPOW true = .error failure
        → failure.corruptionPossible = false
        → ∃ flagged, checkBlock other hashes b strictOther fCheckPOWOther true = .error flagged
          ∧ flagged.corruptionPossible = true)
      ∧ ((a.buildMerkleTree hashes.hash).1 = (b.buildMerkleTree hashes.hash).1
        → a.txids.length < b.txids.length ∧ (b.buildMerkleTree hashes.hash).2 = true
          ∨ b.txids.length < a.txids.length ∧ (a.buildMerkleTree hashes.hash).2 = true) := by
  simp only [CBlock.buildMerkleTree_eq]
  refine ⟨?_, mutated_of_root_eq free notNull notNullOther different⟩
  intro failure rejected unflagged
  cases merkle : checkMerkleRoot hashes a with
  | error first =>
    -- the failure of the first block would have been this one
    have decided : checkBlock env hashes a strict fCheckPOW true = .error first :=
      checkBlock_of_checkMerkleRoot header merkle
    obtain rfl := Except.error.inj (decided.symm.trans rejected)
    rw [checkMerkleRoot_flagged merkle] at unflagged
    cases unflagged
  | ok _ =>
    obtain ⟨root, once⟩ := checkMerkleRoot_ok merkle
    cases merkleOther : checkMerkleRoot hashes b with
    | error flagged =>
      exact ⟨flagged, checkBlock_of_checkMerkleRoot headerOther merkleOther,
        checkMerkleRoot_flagged merkleOther⟩
    | ok _ =>
      obtain ⟨rootOther, onceOther⟩ := checkMerkleRoot_ok merkleOther
      have same : merkleRoot hashes.hash a.txids = merkleRoot hashes.hash b.txids := by
        rw [← root, ← rootOther, sameHeader]
      rcases mutated_of_root_eq free notNull notNullOther different same with
        ⟨_, mutated⟩ | ⟨_, mutated⟩
      · rw [onceOther] at mutated
        cases mutated
      · rw [once] at mutated
        cases mutated

section Sample

def pairHashes : Hashes := { sampleHashes with hash := firstBytesHash }

/-- A block without a coinbase, and with a Merkle root that fits its three transactions. -/
def threeBlock : CBlock where
  hashMerkleRoot := ⟨[255, 255, 255] ++ replicate 29 0, rfl⟩
  vtx := [1, 2, 3].map fun n => { sampleSpend with hash := List.Vector.replicate 32 n }

/-- The same block with its last transaction repeated. -/
def fourBlock : CBlock :=
  { threeBlock with
    vtx := [1, 2, 3, 3].map fun n => { sampleSpend with hash := List.Vector.replicate 32 n } }

theorem noMerkleCollision_sample
    : NoMerkleCollision pairHashes.hash threeBlock.txids fourBlock.txids := by
  let pairs := merklePairs pairHashes.hash threeBlock.txids
    ++ merklePairs pairHashes.hash fourBlock.txids
  have free : Set.InjOn (Function.uncurry (pairHash pairHashes.hash)) {p | p ∈ pairs} :=
    injOn_of_all (by decide +kernel)
  have noTxid : (pairs.all fun p => decide (pairHash pairHashes.hash p.1 p.2 ∉ threeBlock.txids
      ∧ pairHash pairHashes.hash p.1 p.2 ∉ fourBlock.txids)) = true := by
    decide +kernel
  rw [all_eq_true] at noTxid
  exact ⟨fun p left q right same =>
      free (mem_append.mpr left) (mem_append.mpr right) same,
    fun p mem => of_decide_eq_true (noTxid p (mem_append.mpr mem))⟩

theorem noNullHash_of_all {hash txids} (txid : .null ∉ txids)
    (node : ((merklePairs hash txids).all fun p => pairHash hash p.1 p.2 != .null) = true)
    : NoNullHash hash txids :=
  ⟨txid, fun p mem => bne_iff_ne.mp (all_eq_true.mp node p mem)⟩

end Sample

theorem header_not_condemned_three
    : checkBlock sampleEnvironment pairHashes threeBlock true true true
        = .error (dos 100 rejectInvalid "bad-cb-missing")
      ∧ ∃ flagged, checkBlock sampleEnvironment pairHashes fourBlock true true true
          = .error flagged
        ∧ flagged.corruptionPossible = true := by
  have rejected : checkBlock sampleEnvironment pairHashes threeBlock true true true
      = .error (dos 100 rejectInvalid "bad-cb-missing") := by
    decide +kernel
  have header : checkBlockHeader sampleEnvironment threeBlock.toCBlockHeader true = .ok () := by
    decide +kernel
  have other := header_not_condemned (a := threeBlock) (b := fourBlock) true true rfl header
    header (by decide +kernel) noMerkleCollision_sample
    (noNullHash_of_all (by decide) (by decide +kernel))
    (noNullHash_of_all (by decide) (by decide +kernel))
  exact ⟨rejected, other.1 _ rejected rfl⟩

/-- Every hash is null, except for those of pairs. -/
def nullHashes : Hashes :=
  { sampleHashes with
    hash := fun bytes => if bytes.length = 64 then pairHashes.hash bytes else .null }

/-- Without transactions a block has the null hash as its root, and so has a block whose only
txid is null: the first is rejected for good, although the second is accepted.
-/
theorem empty_block_condemns_null_root
    : ∃ a b : CBlock, a.toCBlockHeader = b.toCBlockHeader
      ∧ checkBlockHeader sampleEnvironment a.toCBlockHeader true = .ok ()
      ∧ a.txids ≠ b.txids
      ∧ (∀ tx ∈ b.vtx, tx.toCMutableTransaction.serialize.map nullHashes.hash = .ok tx.hash)
      ∧ NoMerkleCollision nullHashes.hash a.txids b.txids
      ∧ checkBlock sampleEnvironment nullHashes a true true true
        = .error (dos 100 rejectInvalid "bad-blk-length")
      ∧ checkBlock sampleEnvironment nullHashes b true true true = .ok () := by
  refine ⟨{}, { vtx := [sampleCoinBase [0, 0] .null] }, rfl, by decide +kernel, by decide +kernel,
    by decide +kernel, ?_, by decide +kernel, by decide +kernel⟩
  have noPairs (p : Uint256 × Uint256)
      : ¬ (p ∈ merklePairs nullHashes.hash (CBlock.txids {})
        ∨ p ∈ merklePairs nullHashes.hash
          (CBlock.txids { vtx := [sampleCoinBase [0, 0] .null] })) := by
    rw [merklePairs_of_length_le_one _ (by decide), merklePairs_of_length_le_one _ (by decide)]
    simp
  exact ⟨fun p mem => absurd mem (noPairs p), fun p mem => absurd mem (noPairs p)⟩

end Resistance.Validation

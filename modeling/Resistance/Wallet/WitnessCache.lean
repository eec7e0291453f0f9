import Resistance.Lib.FiniteMap
import Resistance.Primitives.WireFormat
import Resistance.Zcash.IncrementalMerkleTree

/-! The witness caches of the wallet's notes: what `IncrementNoteWitnesses` and
`DecrementNoteWitnesses` do to them when a block is connected or disconnected. The assertions are
the errors.
-/

namespace Resistance.Wallet.NoteCache

open Primitives Zcash Lib Lib.Checks

def incrementalMerkleTreeDepth : Nat := 29
def saplingIncrementalMerkleTreeDepth : Nat := 32

/-- `SproutNoteData` and `SaplingNoteData`: the first witness is the most recent one. -/
structure NoteData where
  witnesses : List (IncrementalWitness Uint256) := []
  witnessHeight : Int := -1
  deriving DecidableEq

structure JSOutPoint where
  hash : Uint256
  js : Nat
  n : Nat
  deriving DecidableEq

structure SaplingOutPoint where
  hash : Uint256
  n : Nat
  deriving DecidableEq

structure CWalletTx where
  mapSproutNoteData : FiniteMap JSOutPoint NoteData := ∅
  mapSaplingNoteData : FiniteMap SaplingOutPoint NoteData := ∅

structure CWallet where
  mapWallet : FiniteMap Uint256 CWalletTx := ∅
  nWitnessCacheSize : Int := 0

/-- What does not change during a run: the two hash functions and `MAX_REORG_LENGTH`, which is an
`int` like the coinbase maturity.
-/
structure Context where
  sproutHash : MerkleHash Uint256
  saplingHash : MerkleHash Uint256
  maxReorgLength : Nat
  small : maxReorgLength + 1 < 2 ^ 31

/-- `WITNESS_CACHE_SIZE` -/
def Context.witnessCacheSize (context : Context) : Nat := context.maxReorgLength + 1

/-- The signed counter is converted for the comparison with a size. -/
def sizeFits (nWitnessCacheSize : Int) (size : Nat) : Prop :=
  (nWitnessCacheSize % 2 ^ 64).toNat ≥ size

instance (nWitnessCacheSize : Int) (size : Nat) : Decidable (sizeFits nWitnessCacheSize size) :=
  inferInstanceAs (Decidable (_ ≥ _))

namespace NoteData

/-- Copy the witness for the previous block if we have one. -/
def copyFront {α : Type} (witnessCacheSize : Nat) : List α → List α
  | [] => []
  | front :: rest =>
    if (front :: front :: rest).length > witnessCacheSize then (front :: front :: rest).dropLast
    else front :: front :: rest

/-- The body of the loop of `CopyPreviousWitnesses`. -/
def copyPreviousWitness (witnessCacheSize : Nat) (indexHeight nWitnessCacheSize : Int)
    (nd : NoteData)
    : Except String NoteData :=
  -- Only increment witnesses that are behind the current height
  if nd.witnessHeight < indexHeight then do
    assertThat (sizeFits nWitnessCacheSize nd.witnesses.length)
      "nWitnessCacheSize >= nd->witnesses.size()"
    assertThat (nd.witnessHeight = -1 ∨ nd.witnessHeight = indexHeight - 1)
      "(nd->witnessHeight == -1) || (nd->witnessHeight == indexHeight - 1)"
    return { nd with witnesses := copyFront witnessCacheSize nd.witnesses }
  else return nd

/-- The body of the loop of `AppendNoteCommitment`. -/
def appendNoteCommitment (ops : MerkleHash Uint256) (Depth : Nat)
    (indexHeight nWitnessCacheSize : Int) (noteCommitment : Uint256) (nd : NoteData)
    : Except String NoteData :=
  match nd.witnesses with
  | [] => return nd
  | front :: rest =>
    if nd.witnessHeight < indexHeight then do
      assertThat (sizeFits nWitnessCacheSize nd.witnesses.length)
        "nWitnessCacheSize >= nd->witnesses.size()"
      let front ← front.append ops Depth noteCommitment
      return { nd with witnesses := front :: rest }
    else return nd

/-- What `WitnessNoteIfMine` does to the note. A cache that is not empty is inconsistent and
cleared.
-/
def witnessNote (indexHeight nWitnessCacheSize : Int) (witness : IncrementalWitness Uint256)
    (nd : NoteData)
    : Except String NoteData :=
  if nd.witnessHeight < indexHeight then do
    -- Set height to one less than pindex so it gets incremented
    let nd : NoteData := { witnesses := [witness], witnessHeight := indexHeight - 1 }
    assertThat (sizeFits nWitnessCacheSize nd.witnesses.length)
      "nWitnessCacheSize >= nd->witnesses.size()"
    return nd
  else return nd

/-- The body of the loop of `UpdateWitnessHeights`. -/
def updateWitnessHeight (indexHeight nWitnessCacheSize : Int) (nd : NoteData)
    : Except String NoteData :=
  if nd.witnessHeight < indexHeight then do
    assertThat (sizeFits nWitnessCacheSize nd.witnesses.length)
      "nWitnessCacheSize >= nd->witnesses.size()"
    return { nd with witnessHeight := indexHeight }
  else return nd

/-- The body of the loop of the template `DecrementNoteWitnesses`. -/
def decrementNoteWitness (indexHeight nWitnessCacheSize : Int) (nd : NoteData)
    : Except String NoteData := do
  let nd ← (
    -- Only decrement witnesses that are not above the current height
    if nd.witnessHeight ≤ indexHeight then do
      assertThat (sizeFits nWitnessCacheSize nd.witnesses.length)
        "nWitnessCacheSize >= nd->witnesses.size()"
      assertThat (nd.witnessHeight = -1 ∨ nd.witnessHeight = indexHeight)
        "(nd->witnessHeight == -1) || (nd->witnessHeight == indexHeight)"
      return { witnesses := nd.witnesses.tail, witnessHeight := indexHeight - 1 }
    else return nd : Except String NoteData)
  assertThat (nd.witnessHeight < indexHeight
    → sizeFits (nWitnessCacheSize - 1) nd.witnesses.length)
    "(nWitnessCacheSize - 1) >= nd->witnesses.size()"
  return nd

end NoteData

namespace CWalletTx

/-- A loop over the Sprout notes of a transaction. -/
def forSprout (f : NoteData → Except String NoteData) (wtx : CWalletTx)
    : Except String CWalletTx := do
  return { wtx with mapSproutNoteData := ← wtx.mapSproutNoteData.forEach f }

/-- A loop over the Sapling notes of a transaction. -/
def forSapling (f : NoteData → Except String NoteData) (wtx : CWalletTx)
    : Except String CWalletTx := do
  return { wtx with mapSaplingNoteData := ← wtx.mapSaplingNoteData.forEach f }

/-- `WitnessNoteIfMine` for a Sprout note. -/
def witnessSprout (f : NoteData → Except String NoteData) (key : JSOutPoint) (wtx : CWalletTx)
    : Except String CWalletTx := do
  return { wtx with mapSproutNoteData := ← wtx.mapSproutNoteData.changeAt f key }

/-- `WitnessNoteIfMine` for a Sapling note. -/
def witnessSapling (f : NoteData → Except String NoteData) (key : SaplingOutPoint) (wtx : CWalletTx)
    : Except String CWalletTx := do
  return { wtx with mapSaplingNoteData := ← wtx.mapSaplingNoteData.changeAt f key }

end CWalletTx

namespace CWallet

/-- `for (std::pair<const uint256, CWalletTx>& wtxItem : mapWallet)` -/
def forTransactions (f : CWalletTx → Except String CWalletTx) (wallet : CWallet)
    : Except String CWallet := do
  return { wallet with mapWallet := ← wallet.mapWallet.forEach f }

/-- A change of `mapWallet[hash]`, where the transaction is ours. -/
def atTransaction (hash : Uint256) (f : CWalletTx → Except String CWalletTx) (wallet : CWallet)
    : Except String CWallet := do
  return { wallet with mapWallet := ← wallet.mapWallet.changeAt f hash }

end CWallet

/-- The outputs of the joinsplits, in the order of the loops over them. -/
def sproutOutputs (tx : CTransaction) : List (JSOutPoint × Uint256) :=
  tx.vJoinSplit.zipIdx.flatMap fun (jsdesc, i) =>
    jsdesc.commitments.toList.zipIdx.map fun (noteCommitment, j) =>
      (⟨tx.getHash, i, j⟩, noteCommitment)

def saplingOutputs (tx : CTransaction) : List (SaplingOutPoint × Uint256) :=
  tx.vShieldedOutput.zipIdx.map fun (output, i) => (⟨tx.getHash, i⟩, output.cm)

/-- The trees and the wallet while the transactions of a block are gone through. -/
structure Incrementing where
  sproutTree : IncrementalMerkleTree Uint256
  saplingTree : IncrementalMerkleTree Uint256
  wallet : CWallet

namespace Incrementing

variable (context : Context) (nHeight : Int)

/-- The note commitment goes to the tree and to all witnesses of Sprout notes; if the note is
ours, it is witnessed.
-/
def sproutOutput (state : Incrementing) (output : JSOutPoint × Uint256)
    : Except String Incrementing := do
  let nWitnessCacheSize := state.wallet.nWitnessCacheSize
  let sproutTree ← state.sproutTree.append context.sproutHash incrementalMerkleTreeDepth output.2
  let wallet ← state.wallet.forTransactions (CWalletTx.forSprout
    (NoteData.appendNoteCommitment context.sproutHash incrementalMerkleTreeDepth nHeight
      nWitnessCacheSize output.2))
  let wallet ← wallet.atTransaction output.1.hash (CWalletTx.witnessSprout
    (NoteData.witnessNote nHeight nWitnessCacheSize sproutTree.witness) output.1)
  return { state with sproutTree, wallet }

def saplingOutput (state : Incrementing) (output : SaplingOutPoint × Uint256)
    : Except String Incrementing := do
  let nWitnessCacheSize := state.wallet.nWitnessCacheSize
  let saplingTree ←
    state.saplingTree.append context.saplingHash saplingIncrementalMerkleTreeDepth output.2
  let wallet ← state.wallet.forTransactions (CWalletTx.forSapling
    (NoteData.appendNoteCommitment context.saplingHash saplingIncrementalMerkleTreeDepth nHeight
      nWitnessCacheSize output.2))
  let wallet ← wallet.atTransaction output.1.hash (CWalletTx.witnessSapling
    (NoteData.witnessNote nHeight nWitnessCacheSize saplingTree.witness) output.1)
  return { state with saplingTree, wallet }

def transaction (state : Incrementing) (tx : CTransaction) : Except String Incrementing := do
  let state ← (sproutOutputs tx).foldlM (sproutOutput context nHeight) state
  (saplingOutputs tx).foldlM (saplingOutput context nHeight) state

end Incrementing

namespace CWallet

/-- `IncrementNoteWitnesses(pindex, pblock, sproutTree, saplingTree)`, with the trees before the
block. The block is read from disk where it is not given.
-/
def incrementNoteWitnesses (context : Context) (wallet : CWallet) (nHeight : Int) (block : CBlock)
    (sproutTree saplingTree : IncrementalMerkleTree Uint256)
    : Except String CWallet := do
  let copy := NoteData.copyPreviousWitness context.witnessCacheSize nHeight
    wallet.nWitnessCacheSize
  let wallet ← wallet.forTransactions fun wtx => do (← wtx.forSprout copy).forSapling copy
  let nWitnessCacheSize :=
    if wallet.nWitnessCacheSize < context.witnessCacheSize then wallet.nWitnessCacheSize + 1
    else wallet.nWitnessCacheSize
  let state ← block.vtx.foldlM (Incrementing.transaction context nHeight)
    { sproutTree, saplingTree, wallet := { wallet with nWitnessCacheSize } }
  let update := NoteData.updateWitnessHeight nHeight nWitnessCacheSize
  state.wallet.forTransactions fun wtx => do (← wtx.forSprout update).forSapling update

/-- `DecrementNoteWitnesses(pindex)` -/
def decrementNoteWitnesses (wallet : CWallet) (nHeight : Int) : Except String CWallet := do
  let decrement := NoteData.decrementNoteWitness nHeight wallet.nWitnessCacheSize
  let wallet ← wallet.forTransactions fun wtx => do
    (← wtx.forSprout decrement).forSapling decrement
  let nWitnessCacheSize := wallet.nWitnessCacheSize - 1
  assertThat (nWitnessCacheSize > 0) "nWitnessCacheSize > 0"
  return { wallet with nWitnessCacheSize }

/-- `mapWallet.insert(make_pair(hash, wtx))` of `AddToWallet`: a transaction that is in the wallet
stays as it is.
-/
def addToWallet (wallet : CWallet) (hash : Uint256) (wtx : CWalletTx) : CWallet :=
  match wallet.mapWallet.lookup hash with
  | none => { wallet with mapWallet := wallet.mapWallet.insert hash wtx }
  | some _ => wallet

end CWallet

end Resistance.Wallet.NoteCache

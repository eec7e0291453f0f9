import Mathlib.Data.Fintype.Pi
import Resistance.Consensus.Params
import Resistance.Primitives.MerkleRoot
import Resistance.Primitives.RoundTrip

/-! `CPartialMerkleTree`, from `merkleblock.h` and `merkleblock.cpp`: a block's Merkle tree cut
down to the paths of selected transactions, with its wire format.
-/

namespace Resistance.Primitives

open Lib.Codec Lib.PairTree Consensus

structure CPartialMerkleTree where
  nTransactions : UInt32
  /-- Whether a node is a parent of a matched txid, for the nodes in traversal order. -/
  vBits : List Bool
  vHash : List Uint256
  fBad : Bool
  deriving DecidableEq

/-- The number of nodes at a height; within the limits of `ExtractMatches` nothing wraps. -/
def calcTreeWidth (nTransactions height : Nat) : Nat :=
  (nTransactions + (1 <<< height) - 1) >>> height

/-- `while (CalcTreeWidth(nHeight) > 1) nHeight++;` -/
def calcTreeHeight (nTransactions : Nat) : Nat → Nat → Nat
  | 0, nHeight => nHeight
  | fuel + 1, nHeight =>
    if calcTreeWidth nTransactions nHeight > 1 then
      calcTreeHeight nTransactions fuel (nHeight + 1)
    else nHeight

namespace CPartialMerkleTree

section Build

variable (hash : Bytes → Uint256) (vTxid : List Uint256) (vMatch : List Bool)

def calcHash : Nat → Nat → Uint256
  -- hash at height 0 is the txid itself
  | 0, pos => vTxid.getD pos .null
  | height + 1, pos =>
    let left := calcHash height (pos * 2)
    -- right hash if not beyond the end of the array - copy left hash otherwise
    let right :=
      if pos * 2 + 1 < calcTreeWidth vTxid.length height then calcHash height (pos * 2 + 1)
      else left
    pairHash hash left right

/-- The positions of the transactions below a node. -/
def below (height pos : Nat) : List Nat :=
  (List.range' (pos <<< height) (1 <<< height)).filter (· < vTxid.length)

def parentOfMatch (height pos : Nat) : Bool :=
  (below vTxid height pos).any fun p => vMatch.getD p false

/-- The bits and hashes that `TraverseAndBuild` appends for a node. -/
def traverseAndBuild : Nat → Nat → List Bool × List Uint256
  | 0, pos => ([parentOfMatch vTxid vMatch 0 pos], [calcHash hash vTxid 0 pos])
  | height + 1, pos =>
    if parentOfMatch vTxid vMatch (height + 1) pos then
      -- don't store any hash, but descend into the subtrees
      let left := traverseAndBuild height (pos * 2)
      let right :=
        if pos * 2 + 1 < calcTreeWidth vTxid.length height then
          traverseAndBuild height (pos * 2 + 1)
        else ([], [])
      (true :: (left.1 ++ right.1), left.2 ++ right.2)
    else ([false], [calcHash hash vTxid (height + 1) pos])

/-- The constructor from a list of txids and a mask that selects some of them. -/
def ofTxids : CPartialMerkleTree where
  nTransactions := UInt32.ofNat vTxid.length
  vBits := (traverseAndBuild hash vTxid vMatch
    (calcTreeHeight vTxid.length vTxid.length 0) 0).1
  vHash := (traverseAndBuild hash vTxid vMatch
    (calcTreeHeight vTxid.length vTxid.length 0) 0).2
  fBad := false

end Build

section Extract

variable (hash : Bytes → Uint256) (tree : CPartialMerkleTree)

/-- What `TraverseAndExtract` changes. -/
structure Extraction where
  nBitsUsed : Nat := 0
  nHashUsed : Nat := 0
  vMatch : List Uint256 := []
  fBad : Bool := false

/-- Use a stored hash and do not descend; `matched` tells of a matched txid. -/
def useHash (matched : Bool) (s : Extraction) : Uint256 × Extraction :=
  match tree.vHash[s.nHashUsed]? with
  -- overflowed the hash array - failure
  | none => (.null, { s with fBad := true })
  | some h =>
    (h, { s with
      nHashUsed := s.nHashUsed + 1
      vMatch := if matched then s.vMatch ++ [h] else s.vMatch })

def traverseAndExtract : Nat → Nat → Extraction → Uint256 × Extraction
  | height, pos, s =>
    match tree.vBits[s.nBitsUsed]? with
    -- overflowed the bits array - failure
    | none => (.null, { s with fBad := true })
    | some fParentOfMatch =>
      let s := { s with nBitsUsed := s.nBitsUsed + 1 }
      match height with
      | 0 => useHash tree fParentOfMatch s
      | height + 1 =>
        if !fParentOfMatch then useHash tree false s
        else
          let (left, s) := traverseAndExtract height (pos * 2) s
          if pos * 2 + 1 < calcTreeWidth tree.nTransactions.toNat height then
            let (right, s) := traverseAndExtract height (pos * 2 + 1) s
            -- the left and right branches should never be identical
            (pairHash hash left right, { s with fBad := s.fBad || right == left })
          else (pairHash hash left left, s)

/-- The root and the matched txids, or the null hash in case of failure. -/
def extractMatches : Uint256 × List Uint256 :=
  let nTransactions := tree.nTransactions.toNat
  -- an empty set will not work
  if nTransactions = 0 then (.null, [])
  -- 60 is the lower bound for the size of a serialized CTransaction
  else if nTransactions > maxBlockSize / 60 then (.null, [])
  -- there can never be more hashes provided than one for every txid
  else if tree.vHash.length > nTransactions then (.null, [])
  -- at least one bit per node in the partial tree, and at least one node per hash
  else if tree.vBits.length < tree.vHash.length then (.null, [])
  else
    let (hashMerkleRoot, s) := tree.traverseAndExtract hash
      (calcTreeHeight nTransactions nTransactions 0) 0 { fBad := tree.fBad }
    if s.fBad then (.null, s.vMatch)
    -- all bits consumed, except for the padding caused by serializing them as bytes
    else if (s.nBitsUsed + 7) / 8 ≠ (tree.vBits.length + 7) / 8 then (.null, s.vMatch)
    else if s.nHashUsed ≠ tree.vHash.length then (.null, s.vMatch)
    else (hashMerkleRoot, s.vMatch)

end Extract

/-- One of the bytes that hold the bits, the first bit lowest. -/
def packByte (bits : Fin 8 → Bool) : UInt8 :=
  (List.finRange 8).foldl (fun byte k => byte ||| ((bits k).toUInt8 <<< UInt8.ofNat k.val)) 0

def packBits (vBits : List Bool) : Bytes :=
  (List.range ((vBits.length + 7) / 8)).map fun i =>
    packByte fun k => vBits.getD (8 * i + k) false

def unpackBits (vBytes : Bytes) : List Bool :=
  (List.range (vBytes.length * 8)).map fun p =>
    vBytes.getD (p / 8) 0 &&& (1 <<< UInt8.ofNat (p % 8)) != 0

def serialize (tree : CPartialMerkleTree) : Bytes :=
  serWritedata32 tree.nTransactions
  ++ (serializeVector serializeBytes tree.vHash
  ++ serializeVector serWritedata8 (packBits tree.vBits))

def unserialize : Reader String CPartialMerkleTree := do
  let nTransactions ← serReaddata32
  let vHash ← unserializeVector (unserializeBytes 32)
  let vBytes ← unserializeVector serReaddata8
  pure { nTransactions, vHash, vBits := unpackBits vBytes, fBad := false }

theorem packByte_bit : ∀ (bits : Fin 8 → Bool) (k : Fin 8),
    (packByte bits &&& (1 <<< UInt8.ofNat k.val) != 0) = bits k := by
  decide +kernel

end CPartialMerkleTree

end Resistance.Primitives

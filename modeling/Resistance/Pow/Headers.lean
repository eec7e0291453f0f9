import Resistance.Arith.Compact
import Resistance.Consensus.Params
import Resistance.Lib.OrderStatistic
import Resistance.Primitives.WireFormat

/-! Header validation of `pow.cpp` and `main.cpp`: the required target, the proof of work, the
median of past times, and the chain work that `AddToBlockIndex` accumulates.
-/

namespace Resistance.Pow

open Primitives Consensus Arith Lib.Checks
open Resistance.Lib.OrderStatistic (median)

/-- The proof-of-work parameters of `Consensus::Params`. -/
structure PowParams extends Params where
  powLimit : Uint256
  nPowAllowMinDifficultyBlocksAfterHeight : Option Nat
  nPowAveragingWindow : Nat
  nPowMaxAdjustDown : Int
  nPowMaxAdjustUp : Int
  nPreBlossomPowTargetSpacing : Int
  nPostBlossomPowTargetSpacing : Int

namespace PowParams

def poWTargetSpacing (params : PowParams) (nHeight : Int) : Int :=
  if params.networkUpgradeActive nHeight .blossom then params.nPostBlossomPowTargetSpacing
  else params.nPreBlossomPowTargetSpacing

def averagingWindowTimespan (params : PowParams) (nHeight : Int) : Int :=
  params.nPowAveragingWindow * params.poWTargetSpacing nHeight

def minActualTimespan (params : PowParams) (nHeight : Int) : Int :=
  (params.averagingWindowTimespan nHeight * (100 - params.nPowMaxAdjustUp)).tdiv 100

def maxActualTimespan (params : PowParams) (nHeight : Int) : Int :=
  (params.averagingWindowTimespan nHeight * (100 + params.nPowMaxAdjustDown)).tdiv 100

/-- `CMainParams`. -/
def main : PowParams where
  toParams := Params.main
  powLimit := ⟨List.replicate 30 0xff ++ [0x07, 0x00], rfl⟩
  nPowAllowMinDifficultyBlocksAfterHeight := none
  nPowAveragingWindow := 17
  nPowMaxAdjustDown := 32
  nPowMaxAdjustUp := 16
  nPreBlossomPowTargetSpacing := 60
  nPostBlossomPowTargetSpacing := 60

end PowParams

/-- The fields of `CBlockIndex` that header validation reads. -/
structure HeaderIndex where
  nHeight : Int
  nTime : UInt32
  nBits : UInt32
  nChainWork : ArithUint256
  deriving DecidableEq

/-- A block index and those that `pprev` leads to, down to the genesis block; `NULL` is the
empty list.
-/
abbrev HeaderChain := List HeaderIndex

def HeaderIndex.getBlockTime (index : HeaderIndex) : Int := index.nTime.toNat

/-- `CBlockHeader::GetBlockTime`. -/
def getBlockTime (block : CBlockHeader) : Int := block.nTime.toNat

def nMedianTimeSpan : Nat := 11

def getMedianTimePast (pindex : HeaderChain) : Int :=
  median ((pindex.take nMedianTimeSpan).map HeaderIndex.getBlockTime) 0

/-- `ReadLE32`. -/
def readLE32 (b₀ b₁ b₂ b₃ : UInt8) : UInt32 :=
  b₀.toUInt32 ||| b₁.toUInt32 <<< 8 ||| b₂.toUInt32 <<< 16 ||| b₃.toUInt32 <<< 24

/-- The loop of `UintToArith256`. -/
def readLimbs : Bytes → Limbs
  | b₀ :: b₁ :: b₂ :: b₃ :: rest => readLE32 b₀ b₁ b₂ b₃ :: readLimbs rest
  | _ => []

theorem length_readLimbs {limbs bytes} (sized : bytes.length = 4 * limbs)
    : (readLimbs bytes).length = limbs := by
  induction limbs generalizing bytes with
  | zero => rw [List.length_eq_zero_iff.mp sized]; rfl
  | succ limbs ih =>
    match bytes, sized with
    | b₀ :: b₁ :: b₂ :: b₃ :: rest, sized =>
      rw [readLimbs, List.length_cons, ih (by simp only [List.length_cons] at sized; omega)]

def uintToArith256 (a : Uint256) : ArithUint256 where
  pn := readLimbs a.toList
  width := length_readLimbs a.toList_length

/-- `nActualTimespan` of `CalculateNextWorkRequired`, dampened and bounded. -/
def boundedTimespan (nLastBlockTime nFirstBlockTime : Int) (params : PowParams) (nextHeight : Int)
    : Int :=
  let averagingWindowTimespan := params.averagingWindowTimespan nextHeight
  let minActualTimespan := params.minActualTimespan nextHeight
  let maxActualTimespan := params.maxActualTimespan nextHeight
  -- Limit adjustment step. Use medians to prevent time-warp attacks.
  let nActualTimespan := nLastBlockTime - nFirstBlockTime
  let nActualTimespan := averagingWindowTimespan
    + (nActualTimespan - averagingWindowTimespan).tdiv 4
  let nActualTimespan := if nActualTimespan < minActualTimespan then minActualTimespan
    else nActualTimespan
  if nActualTimespan > maxActualTimespan then maxActualTimespan else nActualTimespan

/-- The target of `CalculateNextWorkRequired` before it is made compact. The product is the one
with a `uint32_t`, the better conversion of an `int64_t`.
-/
def nextTarget (bnAvg : ArithUint256) (nLastBlockTime nFirstBlockTime : Int)
    (params : PowParams) (nextHeight : Int)
    : Except String ArithUint256 := do
  let nActualTimespan := boundedTimespan nLastBlockTime nFirstBlockTime params nextHeight
  let bnPowLimit := uintToArith256 params.powLimit
  let bnNew ← bnAvg.div (.ofUInt64 (UInt64.ofInt (params.averagingWindowTimespan nextHeight)))
  let bnNew := bnNew.mul32 (UInt32.ofInt nActualTimespan)
  return if bnNew.greater bnPowLimit then bnPowLimit else bnNew

def calculateNextWorkRequired (bnAvg : ArithUint256) (nLastBlockTime nFirstBlockTime : Int)
    (params : PowParams) (nextHeight : Int)
    : Except String UInt32 :=
  (nextTarget bnAvg nLastBlockTime nFirstBlockTime params nextHeight).map (·.getCompact)

/-- The loop of `GetNextWorkRequired` over the averaging interval: the sum of the targets, and
`pindexFirst`.
-/
def averagingLoop : Nat → HeaderChain → ArithUint256 → ArithUint256 × HeaderChain
  | remaining + 1, pindexFirst :: pprev, bnTot =>
    averagingLoop remaining pprev
      (bnTot.add (ArithUint256.setCompact pindexFirst.nBits).target)
  | _, pindexFirst, bnTot => (bnTot, pindexFirst)

def getNextWorkRequired (pindexLast : HeaderChain) (pblock : Option CBlockHeader)
    (params : PowParams)
    : Except String UInt32 :=
  let nProofOfWorkLimit := (uintToArith256 params.powLimit).getCompact
  match pindexLast with
  -- Genesis block.
  | [] => .ok nProofOfWorkLimit
  | last :: _ =>
    let nextHeight := last.nHeight + 1
    -- Special difficulty rule for testnet.
    let minDifficulty : Bool := match params.nPowAllowMinDifficultyBlocksAfterHeight, pblock with
      | some afterHeight, some block =>
        last.nHeight ≥ afterHeight
          && getBlockTime block > last.getBlockTime + params.poWTargetSpacing nextHeight * 6
      | _, _ => false
    if minDifficulty then .ok nProofOfWorkLimit
    else
      match averagingLoop params.nPowAveragingWindow pindexLast (.ofUInt64 0) with
      -- Check we have enough blocks.
      | (_, []) => .ok nProofOfWorkLimit
      | (bnTot, pindexFirst) => do
        let bnAvg ← bnTot.div (.ofUInt64 (UInt64.ofNat params.nPowAveragingWindow))
        calculateNextWorkRequired bnAvg (getMedianTimePast pindexLast)
          (getMedianTimePast pindexFirst) params nextHeight

/-- `CheckProofOfWork`; both of its errors are only logged. -/
def checkProofOfWork (hash : Uint256) (nBits : UInt32) (params : PowParams) : Bool :=
  let bnTarget := ArithUint256.setCompact nBits
  if bnTarget.fNegative || bnTarget.target.equalTo 0 || bnTarget.fOverflow
    || bnTarget.target.greater (uintToArith256 params.powLimit) then false
  else !(uintToArith256 hash).greater bnTarget.target

def getBlockProof (nBits : UInt32) : Except String ArithUint256 := do
  let bnTarget := ArithUint256.setCompact nBits
  if bnTarget.fNegative || bnTarget.fOverflow || bnTarget.target.equalTo 0 then
    return .ofUInt64 0
  let quotient ← bnTarget.target.complement.div (bnTarget.target.add (.ofUInt64 1))
  return quotient.add (.ofUInt64 1)

/-- The proof of a block, as an integer. -/
def proofValue (nBits : UInt32) : Nat :=
  match getBlockProof nBits with
  | .ok proof => proof.value
  | .error _ => 0

def minBlockVersion : Int32 := 4

section Checks

-- `GetHash` and `GetPoWHash` of a header.
variable (getHash getPoWHash : CBlockHeader → Uint256)

/-- `CheckBlockHeader`, with the reject reasons; `fCheckPOW` is set for headers. -/
def checkBlockHeader (block : CBlockHeader) (params : PowParams) (adjustedTime : Int)
    : Except String Unit := do
  throwIf (block.nVersion < minBlockVersion) "version-too-low"
  -- Check proof of work matches claimed amount.
  throwIf (!checkProofOfWork (getPoWHash block) block.nBits params) "high-hash"
  throwIf (getBlockTime block > adjustedTime + 2 * 60 * 60) "time-too-new"

/-- `ContextualCheckBlockHeader`, with the reject reasons. The checkpoint is the height of the
last one whose block is known, where checkpoints are enabled; it has a log message only.
-/
def contextualCheckBlockHeader (block : CBlockHeader) (params : PowParams)
    (pindexPrev : HeaderChain) (pcheckpoint : Option Int)
    : Except String Unit := do
  if getHash block = params.hashGenesisBlock then return
  match pindexPrev with
  | [] => .error "assert(pindexPrev)"
  | prev :: _ =>
    let nHeight := prev.nHeight + 1
    let required ← getNextWorkRequired pindexPrev (some block) params
    throwIf (block.nBits ≠ required) "bad-diffbits"
    throwIf (getBlockTime block ≤ getMedianTimePast pindexPrev) "time-too-old"
    -- Don't accept any forks from the main chain prior to last checkpoint.
    throwIf (pcheckpoint.any (nHeight < ·)) "forked chain older than last checkpoint"
    throwIf (block.nVersion < 4) "bad-version"

end Checks

/-- The index that `AddToBlockIndex` makes for a header whose predecessor is known, or that has
none.
-/
def addToBlockIndex (block : CBlockHeader) (pprev : HeaderChain) : Except String HeaderChain := do
  let proof ← getBlockProof block.nBits
  let nChainWork := match pprev with
    | [] => ArithUint256.ofUInt64 0
    | prev :: _ => prev.nChainWork
  return {
    nHeight := match pprev with
      | [] => 0
      | prev :: _ => prev.nHeight + 1
    nTime := block.nTime
    nBits := block.nBits
    nChainWork := nChainWork.add proof
  } :: pprev

/-- Chains that grow from a genesis header by headers that pass a check on top of the chain. -/
inductive Grows (check : CBlockHeader → HeaderChain → Prop) (genesis : CBlockHeader)
    : HeaderChain → Prop where
  | genesis {chain : HeaderChain} (added : addToBlockIndex genesis [] = .ok chain)
      : Grows check genesis chain
  | next {block : CBlockHeader} {pprev chain : HeaderChain} (grown : Grows check genesis pprev)
      (checked : check block pprev) (added : addToBlockIndex block pprev = .ok chain)
      : Grows check genesis chain

section Acceptance

variable (getHash getPoWHash : CBlockHeader → Uint256) (params : PowParams)

/-- A header that `AcceptBlockHeader` does not find in `mapBlockIndex`, where the genesis block
always is, and that `ContextualCheckBlockHeader` accepts.
-/
def PassesContext (block : CBlockHeader) (pprev : HeaderChain) : Prop :=
  getHash block ≠ params.hashGenesisBlock
    ∧ ∃ pcheckpoint, contextualCheckBlockHeader getHash block params pprev pcheckpoint = .ok ()

/-- A header that `AcceptBlockHeader` adds. -/
def Accepts (block : CBlockHeader) (pprev : HeaderChain) : Prop :=
  (∃ adjustedTime, checkBlockHeader getPoWHash block params adjustedTime = .ok ())
    ∧ PassesContext getHash params block pprev

end Acceptance

end Resistance.Pow

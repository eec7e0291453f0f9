import Resistance.Coins.View
import Resistance.Sprout.JoinSplit

/-! Spending the change of one joinsplit in the next. The change note is not in the note
commitment tree of any block, so that its witness is taken from a tree that the transaction keeps
on its own, and the witnesses of the other notes are given the same commitments. The transaction
builder and the wallet operations `z_sendmany` and `z_mergetoaddress` all do it in this way.
-/

namespace Resistance.Sprout

open Primitives Consensus Zcash Validation Coins Lib Lib.Checks

/-- The treestate within a transaction, since its last joinsplit without change. -/
structure Treestate where
  intermediates : FiniteMap Uint256 SproutMerkleTree := ∅
  previousCommitments : List Uint256 := []

variable (crypto : SproutCrypto)

/-- The loop over the commitments of the previous joinsplit: the tree gets them all, and the
witness of the change is taken from it on the way.
-/
def appendCommitments (changeOutputIndex : Fin 2)
    : Nat → SproutMerkleTree → Option SproutWitness → List Uint256
      → Except String (SproutMerkleTree × Option SproutWitness)
  | _, tree, changeWitness, [] => pure (tree, changeWitness)
  | n, tree, none, commitment :: commitments => do
    let tree ← tree.append crypto.hash sproutTreeDepth commitment
    appendCommitments changeOutputIndex (n + 1) tree
      (if changeOutputIndex.val = n then some tree.witness else none) commitments
  | n, tree, some changeWitness, commitment :: commitments => do
    let tree ← tree.append crypto.hash sproutTreeDepth commitment
    let changeWitness ← changeWitness.append crypto.hash sproutTreeDepth commitment
    appendCommitments changeOutputIndex n tree (some changeWitness) commitments

/-- Find the tree that the previous joinsplit was anchored to. -/
def Treestate.find (treestate : Treestate) (coinsView : ShieldedState) (anchor : Uint256)
    : Option SproutMerkleTree :=
  (treestate.intermediates.lookup anchor).or (coinsView.getAnchorAt anchor)

/-- The treestate with the tree after the commitments of one more joinsplit. -/
def Treestate.extend (treestate : Treestate) (commitments : List Uint256)
    (tree : SproutMerkleTree) : Treestate :=
  let root := tree.root crypto.hash sproutTreeDepth
  {
    -- chained js are interstitial (found in between block boundaries)
    intermediates :=
      if (treestate.intermediates.lookup root).isSome then treestate.intermediates
      else treestate.intermediates.insert root tree
    previousCommitments := treestate.previousCommitments ++ commitments
  }

variable (coinsView : ShieldedState) (failure : String → JoinSplitFailure)

/-- Update the tree state with the previous joinsplit. -/
def Treestate.update (treestate : Treestate) (prevJoinSplit : JSDescription)
    (changeOutputIndex : Option (Fin 2))
    : Except JoinSplitFailure (Treestate × SproutMerkleTree × Option SproutWitness) := do
  match treestate.find coinsView prevJoinSplit.anchor with
  | none => .error (failure "Could not find previous JoinSplit anchor")
  | some tree =>
    match changeOutputIndex with
    | none => .error (.assertion "changeOutputIndex != -1")
    | some index =>
      let (tree, changeWitness) ← (appendCommitments crypto index 0 tree none
        prevJoinSplit.commitments.toList).mapError .runtimeError
      return (treestate.extend crypto prevJoinSplit.commitments.toList tree, tree, changeWitness)

/-- Decrypt the change note's ciphertext to retrieve the data that spending it needs. -/
def decryptChange (decryptError : String → JoinSplitFailure) (changeKey : SproutSpendingKey)
    (joinSplitPubKey : Uint256) (prevJoinSplit : JSDescription) (index : Fin 2)
    : Except JoinSplitFailure SproutNotePlaintext :=
  (crypto.decrypt changeKey (prevJoinSplit.ciphertexts.get index) prevJoinSplit.ephemeralKey
    (descriptionHSig crypto joinSplitPubKey prevJoinSplit) index).mapError decryptError

/-- Give a witness the commitments of the earlier joinsplits. -/
def addHistory (witness : SproutWitness) (previousCommitments : List Uint256)
    : Except JoinSplitFailure SproutWitness :=
  (previousCommitments.foldlM
    (fun (witness : SproutWitness) commitment =>
      witness.append crypto.hash sproutTreeDepth commitment) witness).mapError .runtimeError

/-- The two inputs of a joinsplit; dummies fill the places that are left. -/
def fillInputs (dummies : JSInput × JSInput) : List JSInput → JSInput × JSInput
  | [] => dummies
  | [first] => (first, dummies.2)
  | first :: second :: _ => (first, second)

/-- `FormatMoney`: at least two decimals are kept. -/
def formatMoney (n : CAmount) : String :=
  let nAbs := if n > 0 then n else -n
  let digits := (toString (nAbs % coin)).toList
  let remainder := List.replicate (8 - digits.length) '0' ++ digits
  let kept := remainder.take 2 ++ ((remainder.drop 2).reverse.dropWhile (· == '0')).reverse
  (if n < 0 then "-" else "") ++ toString (nAbs / coin) ++ "." ++ String.ofList kept

example : formatMoney 123450000 = "1.2345" := by rfl

/-- What one joinsplit of a chain pays. -/
structure Settlement where
  /-- Sent to the recipient now. -/
  value : CAmount
  /-- Still owed to the recipient. -/
  due : Option CAmount := none
  jsChange : CAmount := 0
  vpubNew : CAmount := 0

/-- Divide the value that goes into a joinsplit. The last one of all pays `vpub_new`. -/
def settle (insufficient : JoinSplitFailure) (last : Bool)
    (jsInputValue value vpubNewTarget : CAmount) : Except JoinSplitFailure Settlement :=
  if last then do
    throwIf (jsInputValue < vpubNewTarget) insufficient
    let outAmount := value + vpubNewTarget
    throwIf (¬ jsInputValue - outAmount ≥ 0) (.assertion "jsChange >= 0")
    return { value, jsChange := jsInputValue - outAmount, vpubNew := vpubNewTarget }
  -- This is not the last joinsplit, so compute change and any amount still due to the recipient
  else if jsInputValue > value then pure { value, jsChange := jsInputValue - value }
  else if value > jsInputValue then
    -- Any amount due is owed to the recipient.  Let the miners fee get paid first.
    pure { value := jsInputValue, due := some (value - jsInputValue) }
  else pure { value }

end Resistance.Sprout

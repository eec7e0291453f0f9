import Mathlib.Data.List.Basic
import Resistance.Lib.FullTree

/-! The note commitment tree of `zcash/IncrementalMerkleTree`: a frontier of collapsed left
subtrees, the witness kept for one leaf, and their roots and authentication paths.
-/

namespace Resistance.Zcash

/-- The static members of the `Hash` template argument (`SHA256Compress`, `PedersenHash`).
`emptyRoots` is the hard-coded table; the two laws say what its entries are.
-/
structure MerkleHash (Hash : Type) where
  combine : Hash → Hash → Nat → Hash
  uncommitted : Hash
  emptyRoot : Nat → Hash
  bytes : Hash → List UInt8
  emptyRoot_zero : emptyRoot 0 = uncommitted
  emptyRoot_succ
    : ∀ depth, emptyRoot (depth + 1) = combine (emptyRoot depth) (emptyRoot depth) depth

-- `IncrementalMerkleTree<Depth, Hash>`; the depth is an argument of the operations.
structure IncrementalMerkleTree (Hash : Type) where
  left : Option Hash := none
  right : Option Hash := none
  -- Collapsed "left" subtrees ordered toward the root of the tree.
  parents : List (Option Hash) := []
  deriving DecidableEq, Repr

/-- The authentication path in the circuit's format, ordered from the root down. -/
structure MerklePath where
  authenticationPath : List (List Bool)
  index : List Bool
  deriving DecidableEq, Repr

/-- `convertBytesVectorToVector`: the bits of each byte, most significant first. -/
def convertBytesVectorToVector (bytes : List UInt8) : List Bool :=
  bytes.flatMap (fun c => (List.range 8).map (fun j => (c.toNat >>> (7 - j)) % 2 == 1))

namespace IncrementalMerkleTree

variable {Hash : Type} (ops : MerkleHash Hash)

/-- `PathFiller::next`: the front of the queue, or the empty root once it has run out. -/
def fillerNext (depth : Nat) : List Hash → Hash × List Hash
  | [] => (ops.emptyRoot depth, [])
  | hash :: queue => (hash, queue)

def wfcheck (Depth : Nat) (tree : IncrementalMerkleTree Hash) : Except String Unit :=
  if tree.parents.length ≥ Depth then .error "tree has too many parents"
  else if tree.parents ≠ [] ∧ tree.parents.getLast?.join.isNone then
    .error "tree has non-canonical representation of parent"
  else if tree.left.isNone ∧ tree.right.isSome then
    .error "tree has non-canonical representation; right should not exist"
  else if tree.left.isNone ∧ tree.parents.length > 0 then
    .error "tree has non-canonical representation; parents should not be unempty"
  else .ok ()

def last (tree : IncrementalMerkleTree Hash) : Except String Hash :=
  match tree.right, tree.left with
  | some hash, _ => .ok hash
  | none, some hash => .ok hash
  | none, none => .error "tree has no cursor"

/-- The loop of `size` from index `i` on. The shifted 1 is an `int`, which the addition extends to
a `size_t` along with its sign.
-/
def sizeParents : Nat → UInt64 → List (Option Hash) → UInt64
  | _, ret, [] => ret
  | i, ret, parent :: rest =>
    let ret :=
      if parent.isSome then ret + ((1 : Int32) <<< Int32.ofNat (i + 1)).toInt64.toUInt64 else ret
    sizeParents (i + 1) ret rest

def size (tree : IncrementalMerkleTree Hash) : UInt64 :=
  let ret : UInt64 := 0
  let ret := if tree.left.isSome then ret + 1 else ret
  let ret := if tree.right.isSome then ret + 1 else ret
  sizeParents 0 ret tree.parents

-- `parents.size() != depth - 1` is written without the `size_t` subtraction.
def isComplete (depth : Nat) (tree : IncrementalMerkleTree Hash) : Bool :=
  tree.left.isSome && tree.right.isSome && tree.parents.length + 1 == depth
    && tree.parents.all Option.isSome

/-- The carry loop of `append` from index `i` on, over the parents not visited yet. -/
def appendParents (Depth : Nat) : Nat → List (Option Hash) → Hash → List (Option Hash)
  | i, [], combined => if i < Depth then [some combined] else []
  | i, parent :: rest, combined =>
    if i < Depth then
      match parent with
      | some hash =>
        none :: appendParents Depth (i + 1) rest (ops.combine hash combined (i + 1))
      | none => some combined :: rest
    else parent :: rest

def append (Depth : Nat) (tree : IncrementalMerkleTree Hash) (obj : Hash)
    : Except String (IncrementalMerkleTree Hash) :=
  if tree.isComplete Depth then .error "tree is full"
  else
    match tree.left, tree.right with
    | none, _ => .ok { tree with left := some obj }
    | some _, none => .ok { tree with right := some obj }
    | some left, some right =>
      .ok {
        left := some obj
        right := none
        parents := appendParents ops Depth 0 tree.parents (ops.combine left right 0)
      }

-- The `BOOST_FOREACH` of `next_depth`, with the counters `d` and `skip`.
def nextDepthParents : List (Option Hash) → Nat → Nat → Nat
  | [], d, skip => d + skip
  | some _ :: rest, d, skip => nextDepthParents rest (d + 1) skip
  | none :: _, d, 0 => d
  | none :: rest, d, skip + 1 => nextDepthParents rest (d + 1) skip

/-- The depth of the next unfilled subtree, given that `skip` of them are filled. -/
def nextDepth (tree : IncrementalMerkleTree Hash) (skip : Nat) : Nat :=
  match tree.left, tree.right, skip with
  | none, _, 0 => 0
  | none, none, 1 => 0
  | none, none, skip + 2 => nextDepthParents tree.parents 1 skip
  | none, some _, skip + 1 => nextDepthParents tree.parents 1 skip
  | some _, none, 0 => 0
  | some _, none, skip + 1 => nextDepthParents tree.parents 1 skip
  | some _, some _, skip => nextDepthParents tree.parents 1 skip

-- The trailing `while (d < depth)` loop of `root`, for `steps = depth - d` rounds.
def rootFill : Nat → Nat → Hash → List Hash → Hash
  | 0, _, root, _ => root
  | steps + 1, d, root, filler =>
    let next := fillerNext ops d filler
    rootFill steps (d + 1) (ops.combine root next.1 d) next.2

/-- The loops of `root` from level `d` on, over the remaining parents. -/
def rootParents (depth : Nat) : List (Option Hash) → Nat → Hash → List Hash → Hash
  | [], d, root, filler => rootFill ops (depth - d) d root filler
  | some parent :: rest, d, root, filler =>
    rootParents depth rest (d + 1) (ops.combine parent root d) filler
  | none :: rest, d, root, filler =>
    let next := fillerNext ops d filler
    rootParents depth rest (d + 1) (ops.combine root next.1 d) next.2

def rootWith (tree : IncrementalMerkleTree Hash) (depth : Nat) (fillerHashes : List Hash)
    : Hash :=
  let leftNext := match tree.left with
    | some hash => (hash, fillerHashes)
    | none => fillerNext ops 0 fillerHashes
  let rightNext := match tree.right with
    | some hash => (hash, leftNext.2)
    | none => fillerNext ops 0 leftNext.2
  rootParents ops depth tree.parents 1 (ops.combine leftNext.1 rightNext.1 0) rightNext.2

def root (Depth : Nat) (tree : IncrementalMerkleTree Hash) : Hash :=
  tree.rootWith ops Depth []

def pathFill : Nat → Nat → List Hash → List (Hash × Bool)
  | 0, _, _ => []
  | steps + 1, d, filler =>
    let next := fillerNext ops d filler
    (next.1, false) :: pathFill steps (d + 1) next.2

/-- The local vectors `path` and `index` of `path`, paired level by level from `d` on. -/
def pathParents (Depth : Nat)
    : List (Option Hash) → Nat → List Hash → List (Hash × Bool)
  | [], d, filler => pathFill ops (Depth - d) d filler
  | some parent :: rest, d, filler => (parent, true) :: pathParents Depth rest (d + 1) filler
  | none :: rest, d, filler =>
    let next := fillerNext ops d filler
    (next.1, false) :: pathParents Depth rest (d + 1) next.2

/-- The siblings of the tree's last leaf with its index bits, from the leaves up. -/
def pathSiblings (Depth : Nat) (tree : IncrementalMerkleTree Hash) (fillerHashes : List Hash)
    : Except String (List (Hash × Bool)) :=
  match tree.left, tree.right with
  | none, _ =>
    .error "can't create an authentication path for the beginning of the tree"
  | some left, some _ =>
    .ok ((left, true) :: pathParents ops Depth tree.parents 1 fillerHashes)
  | some _, none =>
    let next := fillerNext ops 0 fillerHashes
    .ok ((next.1, false) :: pathParents ops Depth tree.parents 1 next.2)

def path (Depth : Nat) (tree : IncrementalMerkleTree Hash) (fillerHashes : List Hash)
    : Except String MerklePath := do
  let siblings ← tree.pathSiblings ops Depth fillerHashes
  return {
    authenticationPath :=
      (siblings.map (fun s => convertBytesVectorToVector (ops.bytes s.1))).reverse
    index := (siblings.map Prod.snd).reverse
  }

end IncrementalMerkleTree

/-- `IncrementalWitness<Depth, Hash>`: the tree at the witnessed leaf, the later sibling
subtrees already complete, and the one being filled. -/
structure IncrementalWitness (Hash : Type) where
  tree : IncrementalMerkleTree Hash
  filled : List Hash := []
  cursor : Option (IncrementalMerkleTree Hash) := none
  cursorDepth : Nat := 0
  deriving DecidableEq, Repr

namespace IncrementalWitness

variable {Hash : Type} (ops : MerkleHash Hash)

def partialPath (witness : IncrementalWitness Hash) : List Hash :=
  match witness.cursor with
  | some cursor => witness.filled ++ [cursor.rootWith ops witness.cursorDepth []]
  | none => witness.filled

def path (Depth : Nat) (witness : IncrementalWitness Hash) : Except String MerklePath :=
  witness.tree.path ops Depth (witness.partialPath ops)

def element (witness : IncrementalWitness Hash) : Except String Hash :=
  witness.tree.last

def position (witness : IncrementalWitness Hash) : UInt64 := witness.tree.size - 1

def root (Depth : Nat) (witness : IncrementalWitness Hash) : Hash :=
  witness.tree.rootWith ops Depth (witness.partialPath ops)

def append (Depth : Nat) (witness : IncrementalWitness Hash) (obj : Hash)
    : Except String (IncrementalWitness Hash) :=
  match witness.cursor with
  | some cursor => do
    let cursor ← cursor.append ops Depth obj
    if cursor.isComplete witness.cursorDepth then
      return {
        witness with
        filled := witness.filled ++ [cursor.rootWith ops witness.cursorDepth []]
        cursor := none
      }
    else
      return { witness with cursor := some cursor }
  | none =>
    let cursorDepth := witness.tree.nextDepth witness.filled.length
    if cursorDepth ≥ Depth then .error "tree is full"
    else if cursorDepth = 0 then
      .ok { witness with filled := witness.filled ++ [obj], cursorDepth }
    else do
      let cursor ← ({} : IncrementalMerkleTree Hash).append ops Depth obj
      return { witness with cursor := some cursor, cursorDepth }

end IncrementalWitness

def IncrementalMerkleTree.witness {Hash : Type} (tree : IncrementalMerkleTree Hash)
    : IncrementalWitness Hash :=
  { tree }

end Resistance.Zcash

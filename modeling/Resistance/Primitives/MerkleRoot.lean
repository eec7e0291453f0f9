import Mathlib.Data.Nat.Bitwise
import Resistance.Lib.PairTree
import Resistance.Primitives.WireFormat

/-! The transaction Merkle tree of a block as a tree of pairs, and its branches, from
`primitives/block.cpp`. `BuildMerkleTree` reports a block as mutated exactly when some level
ends in two equal hashes that are paired.
-/

namespace Resistance.Primitives

open List Lib.PairTree Nat

variable (hash : Bytes → Uint256)

/-- The hash of an inner node. -/
def pairHash (left right : Uint256) : Uint256 := hash (left.toList ++ right.toList)

def CBlock.txids (block : CBlock) : List Uint256 := block.vtx.map CTransaction.getHash

/-- The pairs that `BuildMerkleTree` hashes. -/
def merklePairs (txids : List Uint256) : List (Uint256 × Uint256) :=
  combined (pairHash hash) (treeHeight txids.length) txids

/-- The root of the tree over a list, or the null hash if the list is empty. -/
def merkleRoot (txids : List Uint256) : Uint256 :=
  (level (pairHash hash) (treeHeight txids.length) txids).head?.getD .null

def merkleMutated (txids : List Uint256) : Bool :=
  (List.range (treeHeight txids.length)).any fun k => repeats (level (pairHash hash) k txids)

variable {hash}

theorem merkleLevel_eq (items : List Uint256)
    : merkleLevel hash items = (up (pairHash hash) items, repeats items) := by
  fun_induction merkleLevel hash items with
  | case1 => rfl
  | case2 a => rfl
  | case3 a b => rfl
  | case4 a b c rest next mutated found ih =>
    rw [found, Prod.mk.injEq] at ih
    rw [ih.1, ih.2]
    rfl

theorem treeHeight_of_le_one {n} (small : n ≤ 1) : treeHeight n = 0 :=
  clog_of_right_le_one small 2

variable {n i : Nat} {items : List Uint256} {h : Uint256}

theorem treeHeight_of_one_lt (large : 1 < n)
    : treeHeight n = treeHeight ((n + 1) / 2) + 1 :=
  clog_of_two_le one_lt_two large

theorem merkleRoot_of_length_le_one (small : items.length ≤ 1)
    : merkleRoot hash items = items.head?.getD .null := by
  rw [merkleRoot, treeHeight_of_le_one small, level_zero]

theorem merkleMutated_of_length_le_one (small : items.length ≤ 1)
    : merkleMutated hash items = false := by
  rw [merkleMutated, treeHeight_of_le_one small]
  rfl

variable (hash) in
theorem merklePairs_of_length_le_one (small : items.length ≤ 1)
    : merklePairs hash items = [] := by
  rw [merklePairs, treeHeight_of_le_one small]
  rfl

theorem merkleRoot_up (large : 1 < items.length)
    : merkleRoot hash (up (pairHash hash) items) = merkleRoot hash items := by
  rw [merkleRoot, merkleRoot, level_up, length_up, treeHeight_of_one_lt large]

theorem merkleMutated_up (large : 1 < items.length)
    : merkleMutated hash items
      = (repeats items || merkleMutated hash (up (pairHash hash) items)) := by
  simp only [merkleMutated, length_up, treeHeight_of_one_lt large, range_succ_eq_map,
    any_cons, level_zero, any_map, level_up, Function.comp_def]

variable (hash) in
theorem level_eq_root (nonempty : items ≠ [])
    : level (pairHash hash) (treeHeight items.length) items = [merkleRoot hash items] := by
  obtain ⟨root, top⟩ := exists_root (pairHash hash) nonempty
  rw [merkleRoot, top]
  rfl

/-- The loop over the levels, with as much fuel as it needs. -/
theorem merkleLevels_eq {mutated} (fuel : items.length ≤ n + 1)
    : merkleLevels hash n items mutated
      = (merkleRoot hash items, mutated || merkleMutated hash items) := by
  induction n generalizing items mutated with
  | zero =>
    rw [merkleLevels, merkleRoot_of_length_le_one fuel, merkleMutated_of_length_le_one fuel,
      Bool.or_false]
  | succ n ih =>
    rw [merkleLevels]
    split
    next small =>
      rw [merkleRoot_of_length_le_one small, merkleMutated_of_length_le_one small, Bool.or_false]
    next large =>
      have many := not_le.mp large
      simp only [merkleLevel_eq]
      rw [ih (by rw [length_up]; omega), merkleRoot_up many, merkleMutated_up many, Bool.or_assoc]

theorem CBlock.buildMerkleTree_eq (block : CBlock)
    : block.buildMerkleTree hash
      = (merkleRoot hash block.txids, merkleMutated hash block.txids) := by
  rw [buildMerkleTree, ← txids, merkleLevels_eq, Bool.false_or]
  rw [txids, length_map]
  exact le_succ _

variable (hash) in
/-- The levels that `BuildMerkleTree` leaves in `vMerkleTree`, one after the other. -/
def merkleLevelsFlat : Nat → List Uint256 → List Uint256
  | 0, items => items
  | n + 1, items =>
    if items.length ≤ 1 then items
    else items ++ merkleLevelsFlat n (merkleLevel hash items).1

variable (hash) in
def CBlock.vMerkleTree (block : CBlock) : List Uint256 :=
  merkleLevelsFlat hash block.vtx.length block.txids

/-- The loop of `GetMerkleBranch`; `j` is where the level of `nSize` hashes starts. -/
def merkleBranchLoop (vMerkleTree : List Uint256)
    : Nat → Nat → Nat → Nat → List Uint256
  | 0, _, _, _ => []
  | n + 1, nSize, j, nIndex =>
    if nSize > 1 then
      let i := min (nIndex ^^^ 1) (nSize - 1)
      vMerkleTree.getD (j + i) .null
        :: merkleBranchLoop vMerkleTree n ((nSize + 1) / 2) (j + nSize) (nIndex / 2)
    else []

variable (hash) in
/-- `GetMerkleBranch`: there are fewer levels than hashes. -/
def CBlock.getMerkleBranch (block : CBlock) (nIndex : Nat) : List Uint256 :=
  merkleBranchLoop (block.vMerkleTree hash) block.vtx.length block.vtx.length 0 nIndex

variable (hash) in
/-- The loop of `CheckMerkleBranch`; the index is halved for each level. -/
def merkleBranchRoot : Uint256 → List Uint256 → Int → Uint256
  | h, [], _ => h
  | h, sibling :: vMerkleBranch, nIndex =>
    merkleBranchRoot
      (if nIndex % 2 = 1 then pairHash hash sibling h else pairHash hash h sibling)
      vMerkleBranch (nIndex / 2)

variable (hash) in
def checkMerkleBranch (h : Uint256) (vMerkleBranch : List Uint256) (nIndex : Int) : Uint256 :=
  if nIndex = -1 then .null else merkleBranchRoot hash h vMerkleBranch nIndex

variable (hash) in
/-- The parent of a hash, from the hash and its sibling as `GetMerkleBranch` finds it. -/
theorem getElem?_up_half (here : items[i]? = some h)
    : (up (pairHash hash) items)[i / 2]? = some
        (if i % 2 = 1 then
          pairHash hash (items.getD (min (i ^^^ 1) (items.length - 1)) .null) h
        else pairHash hash h (items.getD (min (i ^^^ 1) (items.length - 1)) .null)) := by
  have bound : i < items.length := (List.getElem?_eq_some_iff.mp here).1
  rw [up, getElem?_map, getElem?_pairs, getD_eq_getElem?_getD]
  rcases mod_two_eq_zero_or_one i with even | odd
  · have double : 2 * (i / 2) = i := by omega
    rw [double, here, xor_one_of_even (even_iff.mpr even), if_neg (by omega)]
    rcases lt_or_ge (i + 1) items.length with inside | last
    · have clamp : min (i + 1) (items.length - 1) = i + 1 := by omega
      rw [clamp, getElem?_eq_getElem inside]
      rfl
    · -- the last hash of an odd level is its own sibling
      have clamp : min (i + 1) (items.length - 1) = i := by omega
      rw [clamp, getElem?_eq_none last, here]
      rfl
  · have double : 2 * (i / 2) = i - 1 := by omega
    have next : i - 1 + 1 = i := by omega
    have clamp : min (i - 1) (items.length - 1) = i - 1 := by omega
    rw [double, next, here, if_pos odd, xor_one_of_odd (odd_iff.mpr odd), clamp,
      getElem?_eq_getElem (by omega : i - 1 < items.length)]
    rfl

theorem merkleRoot_of_getElem? (small : items.length ≤ 1) (here : items[i]? = some h)
    : merkleRoot hash items = h := by
  have bound : i < items.length := (List.getElem?_eq_some_iff.mp here).1
  obtain rfl : i = 0 := by omega
  rw [merkleRoot_of_length_le_one small, head?_eq_getElem?, here]
  rfl

variable (hash) in
/-- Climbing from a hash at any level reaches the root. The tree is split into the levels
that were passed and the ones from here on.
-/
theorem merkleBranchRoot_loop (passed items : List Uint256) (fuel : items.length ≤ n + 1)
    (here : items[i]? = some h)
    : merkleBranchRoot hash h
        (merkleBranchLoop (passed ++ merkleLevelsFlat hash n items) n items.length
          passed.length i) i
      = merkleRoot hash items := by
  induction n generalizing passed items i h with
  | zero => exact (merkleRoot_of_getElem? fuel here).symm
  | succ n ih =>
    rw [merkleBranchLoop, merkleLevelsFlat]
    split
    next large =>
      have many : ¬ items.length ≤ 1 := by omega
      have parent := getElem?_up_half hash here
      have climbed := ih (passed ++ items) _ (by rw [length_up]; omega) parent
      have sibling (later : List Uint256)
          : (passed ++ (items ++ later)).getD
            (passed.length + min (i ^^^ 1) (items.length - 1)) .null
          = items.getD (min (i ^^^ 1) (items.length - 1)) .null := by
        rw [getD_append_right _ _ _ _ (le_add_right _ _), Nat.add_sub_cancel_left,
          getD_append _ _ _ _ (by omega)]
      have parity : ((i : Int) % 2 = 1) = (i % 2 = 1) := by
        refine propext ⟨fun odd => ?_, fun odd => ?_⟩ <;> omega
      rw [merkleRoot_up large, length_up, length_append, append_assoc] at climbed
      rw [if_neg many, merkleLevel_eq, merkleBranchRoot, sibling, ← climbed]
      simp only [parity, Int.natCast_ediv, cast_ofNat]
    next small =>
      exact (merkleRoot_of_getElem? (not_lt.mp small) here).symm

theorem checkMerkleBranch_getMerkleBranch {block : CBlock} {txid}
    (listed : block.txids[i]? = some txid)
    : checkMerkleBranch hash txid (block.getMerkleBranch hash i) i
      = (block.buildMerkleTree hash).1 := by
  have size : block.vtx.length = block.txids.length := (length_map _).symm
  rw [CBlock.buildMerkleTree_eq]
  have climbed := merkleBranchRoot_loop hash (n := block.vtx.length) [] block.txids
    (by omega) listed
  rwa [← size] at climbed

/-- Collisions on a list of pairs are found by comparing all of them. -/
theorem injOn_of_all {pairs : List (Uint256 × Uint256)}
    (all : (pairs.all fun p => pairs.all fun q =>
      p = q || pairHash hash p.1 p.2 != pairHash hash q.1 q.2) = true)
    : Set.InjOn (Function.uncurry (pairHash hash)) {p | p ∈ pairs} := by
  intro p left q right same
  rw [all_eq_true] at all
  have compared := all_eq_true.mp (all p left) q right
  rw [Bool.or_eq_true, decide_eq_true_eq, bne_iff_ne] at compared
  exact compared.resolve_right fun different => different same

/-- A hash that tells pairs of hashes apart by their first bytes. -/
def firstBytesHash (bytes : Bytes) : Uint256 :=
  ⟨([255] ++ bytes.take 1 ++ (bytes.drop 32).take 1 ++ List.replicate 32 0).take 32, by simp; omega⟩

end Resistance.Primitives

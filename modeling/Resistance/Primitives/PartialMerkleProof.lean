import Resistance.Primitives.PartialMerkleTree

/-! Partial Merkle trees are complete and sound: what is built for a mask, written and read back
gives the matched txids under the block's root, and whatever bits and hashes lead to a block's
root give txids of that block, in its order.
-/

namespace Resistance.Primitives

open List Lib.Codec Lib.PairTree Consensus Nat Function

theorem calcTreeWidth_eq (n height : Nat) : calcTreeWidth n height = width n height := by
  rw [calcTreeWidth, width, shiftLeft_eq, one_mul, shiftRight_eq_div_pow]

theorem calcTreeHeight_from {n fuel height} (start : height ≤ treeHeight n)
    (enough : treeHeight n ≤ height + fuel)
    : calcTreeHeight n fuel height = treeHeight n := by
  induction fuel generalizing height with
  | zero => exact le_antisymm start enough
  | succ fuel ih =>
    rw [calcTreeHeight, calcTreeWidth_eq]
    split
    next wide =>
      have higher : ¬ treeHeight n ≤ height := by
        rw [treeHeight_le_iff]
        exact not_le.mpr wide
      exact ih (by omega) (by omega)
    next narrow =>
      exact le_antisymm start (treeHeight_le_iff.mpr (not_lt.mp narrow))

theorem calcTreeHeight_eq (n : Nat) : calcTreeHeight n n 0 = treeHeight n := by
  refine calcTreeHeight_from (zero_le _) ?_
  rw [zero_add, treeHeight_le_iff, width_le_iff, one_mul]
  exact Nat.lt_two_pow_self.le

namespace CPartialMerkleTree

section Build

variable {hash : Bytes → Uint256} {vTxid : List Uint256} {vMatch : List Bool} {pos height : Nat}

/-- A node has a left child, and has a right one unless it is the odd last node. -/
theorem left_lt_width {n} (node : pos < width n (height + 1))
    : pos * 2 < width n height := by
  rw [width_succ] at node
  omega

variable (hash) in
/-- `CalcHash` finds the nodes of the tree. -/
theorem getElem?_level (node : pos < width vTxid.length height)
    : (level (pairHash hash) height vTxid)[pos]? = some (calcHash hash vTxid height pos) := by
  induction height generalizing pos with
  | zero =>
    rw [width_zero] at node
    rw [level_zero, calcHash, getElem?_eq_getElem node, getD_eq_getElem _ _ node]
  | succ height ih =>
    rw [getElem?_level_succ, mul_comm 2 pos, ih (left_lt_width node), calcHash, calcTreeWidth_eq]
    split
    · next inner => rw [ih inner, Option.map_some, Option.getD_some]
    next odd =>
      rw [getElem?_eq_none (by rw [length_level]; omega)]
      rfl

variable (hash vTxid) in
/-- The children of a node, an odd last child twice. -/
def children (height pos : Nat) : Uint256 × Uint256 :=
  (calcHash hash vTxid height (pos * 2),
    if pos * 2 + 1 < width vTxid.length height then calcHash hash vTxid height (pos * 2 + 1)
    else calcHash hash vTxid height (pos * 2))

theorem children_mem_combined (node : pos < width vTxid.length (height + 1))
    : children hash vTxid height pos ∈ combined (pairHash hash) (height + 1) vTxid := by
  have left := getElem?_level hash (left_lt_width node)
  rw [mul_comm] at left
  have pair := child_mem_combined (lt_succ_self height) left
  rw [children, mul_comm pos]
  split
  · next inner => rwa [getElem?_level hash inner] at pair
  next odd =>
    rwa [getElem?_eq_none (by rw [length_level]; omega)] at pair

theorem below_zero (inside : pos < vTxid.length) : below vTxid 0 pos = [pos] := by
  simp [below, inside]

theorem below_succ (height pos : Nat)
    : below vTxid (height + 1) pos
      = below vTxid height (pos * 2) ++ below vTxid height (pos * 2 + 1) := by
  have double : 1 <<< (height + 1) = 1 <<< height + 1 <<< height := by
    rw [shiftLeft_eq, shiftLeft_eq]
    ring
  have left : pos <<< (height + 1) = (pos * 2) <<< height := by
    rw [shiftLeft_eq, shiftLeft_eq]
    ring
  have right : (pos * 2 + 1) <<< height = (pos * 2) <<< height + 1 * 1 <<< height := by
    rw [shiftLeft_eq, shiftLeft_eq, shiftLeft_eq]
    ring
  rw [below, below, below, ← filter_append, double, left, right, range'_append]

theorem below_eq_nil (beyond : width vTxid.length height ≤ pos)
    : below vTxid height pos = [] := by
  refine filter_eq_nil_iff.mpr fun p mem => ?_
  have start : pos <<< height ≤ p := (mem_range'_1.mp mem).1
  rw [shiftLeft_eq] at start
  rw [width_le_iff] at beyond
  simpa using beyond.trans start

variable (vTxid vMatch) in
/-- The matched txids below a node. -/
def matchedBelow (height pos : Nat) : List Uint256 :=
  ((below vTxid height pos).filter fun p => vMatch.getD p false).map fun p =>
    vTxid.getD p .null

theorem length_below_pos (node : pos < width vTxid.length height)
    : 0 < (below vTxid height pos).length := by
  refine length_pos_of_mem (a := pos <<< height) (mem_filter.mpr ⟨?_, ?_⟩)
  · rw [mem_range'_1, shiftLeft_eq 1, one_mul]
    exact ⟨le_refl _, Nat.lt_add_of_pos_right (Nat.two_pow_pos height)⟩
  · rw [shiftLeft_eq]
    exact decide_eq_true (lt_width_iff.mp node)

/-- What is built has a bit for every node, and at most one hash for every transaction. -/
theorem length_traverseAndBuild (node : pos < width vTxid.length height) {bits hashes}
    (built : traverseAndBuild hash vTxid vMatch height pos = (bits, hashes))
    : hashes.length ≤ bits.length ∧ bits.length < 2 ^ (height + 1)
      ∧ hashes.length ≤ (below vTxid height pos).length := by
  induction height generalizing pos bits hashes with
  | zero =>
    cases built
    exact ⟨le_refl 1, one_lt_two, length_below_pos node⟩
  | succ height ih =>
    have left := ih (left_lt_width node) rfl
    rw [traverseAndBuild, calcTreeWidth_eq] at built
    split_ifs at built with _ inner
    · have right := ih inner rfl
      cases built
      simp only [length_cons, length_append, below_succ]
      omega
    · cases built
      simp only [length_cons, length_append, length_nil, below_succ]
      omega
    · cases built
      exact ⟨le_refl 1, Nat.one_lt_two_pow (succ_ne_zero _), length_below_pos node⟩

/-- The root is above all transactions. -/
theorem below_top : below vTxid (treeHeight vTxid.length) 0 = List.range vTxid.length := by
  have enough : vTxid.length ≤ 2 ^ treeHeight vTxid.length := by
    have top := treeHeight_le_iff.mp (le_refl (treeHeight vTxid.length))
    rwa [width_le_iff, one_mul] at top
  obtain ⟨more, split⟩ := Nat.exists_eq_add_of_le enough
  rw [below, zero_shiftLeft, shiftLeft_eq, one_mul, split, ← range_eq_range',
    range_add, filter_append]
  rw [filter_eq_self.mpr (by simp), filter_eq_nil_iff.mpr (by simp), append_nil]

variable (vTxid vMatch) in
/-- The txids that a mask selects. -/
def matched : List Uint256 := ((vTxid.zip vMatch).filter Prod.snd).map Prod.fst

theorem matchedBelow_top (size : vMatch.length = vTxid.length)
    : matchedBelow vTxid vMatch (treeHeight vTxid.length) 0 = matched vTxid vMatch := by
  rw [matchedBelow, below_top]
  induction vTxid generalizing vMatch with
  | nil => rfl
  | cons txid vTxid ih =>
    cases vMatch with
    | nil => cases size
    | cons bit vMatch =>
      have rest := ih (by simpa using size)
      rw [length_cons, range_succ_eq_map, filter_cons, filter_map]
      cases bit <;> simpa [matched, comp_def] using rest

end Build

section Extract

variable {hash : Bytes → Uint256} {tree : CPartialMerkleTree} {s : Extraction} {pos height : Nat}
  {h : Uint256} {i : Nat} {α : Type} {last : Extraction}

theorem traverseAndExtract_zero {bit} (read : tree.vBits[s.nBitsUsed]? = some bit)
    : tree.traverseAndExtract hash 0 pos s
      = tree.useHash bit { s with nBitsUsed := s.nBitsUsed + 1 } := by
  rw [traverseAndExtract, read]

theorem traverseAndExtract_stop (read : tree.vBits[s.nBitsUsed]? = some false)
    : tree.traverseAndExtract hash (height + 1) pos s
      = tree.useHash false { s with nBitsUsed := s.nBitsUsed + 1 } := by
  rw [traverseAndExtract, read]
  rfl

theorem traverseAndExtract_both {left right middle} (read : tree.vBits[s.nBitsUsed]? = some true)
    (inner : pos * 2 + 1 < width tree.nTransactions.toNat height)
    (first : tree.traverseAndExtract hash height (pos * 2)
      { s with nBitsUsed := s.nBitsUsed + 1 } = (left, middle))
    (second : tree.traverseAndExtract hash height (pos * 2 + 1) middle = (right, last))
    : tree.traverseAndExtract hash (height + 1) pos s
      = (pairHash hash left right, { last with fBad := last.fBad || right == left }) := by
  rw [traverseAndExtract, read]
  simp only [Bool.not_true, Bool.false_eq_true, if_false, calcTreeWidth_eq, if_pos inner, first,
    second]

theorem traverseAndExtract_left {left} (read : tree.vBits[s.nBitsUsed]? = some true)
    (odd : ¬ pos * 2 + 1 < width tree.nTransactions.toNat height)
    (first : tree.traverseAndExtract hash height (pos * 2)
      { s with nBitsUsed := s.nBitsUsed + 1 } = (left, last))
    : tree.traverseAndExtract hash (height + 1) pos s = (pairHash hash left left, last) := by
  rw [traverseAndExtract, read]
  simp only [Bool.not_true, Bool.false_eq_true, if_false, calcTreeWidth_eq, if_neg odd, first]

variable {vTxid : List Uint256} {vMatch : List Bool}

/-- The nodes of distinct txids differ. -/
theorem calcHash_ne {pairs} (free : Set.InjOn (uncurry (pairHash hash)) pairs)
    (inside : ∀ p ∈ combined (pairHash hash) height vTxid, p ∈ pairs) (distinct : vTxid.Nodup) {j}
    (left : i < width vTxid.length height) (right : j < width vTxid.length height)
    (different : i ≠ j)
    : calcHash hash vTxid height i ≠ calcHash hash vTxid height j := by
  intro same
  have leftNode := getElem?_level hash left
  have rightNode := getElem?_level hash right
  rw [← same, ← leftNode] at rightNode
  have bound : i < (level (pairHash hash) height vTxid).length := by rwa [length_level]
  exact different ((getElem?_inj bound (nodup_level free inside distinct)).mp rightNode.symm)

section

variable {items more : List α} {a : α} (found : items.drop i = a :: more)
include found

theorem head_of_drop
    : items[i]? = some a := by
  rw [← head?_drop, found]
  rfl

theorem tail_of_drop
    : items.drop (i + 1) = more := by
  rw [← tail_drop, found, tail_cons]

end

theorem drop_append {items first more : List α} (found : items.drop i = first ++ more)
    : items.drop (i + first.length) = more := by
  rw [← drop_drop, found, drop_left]

variable (vMatch tree) in
/-- What was built for a node is extracted again, wherever the bits and hashes start. -/
theorem traverseAndExtract_build {pairs}
    (free : Set.InjOn (uncurry (pairHash hash)) pairs) (distinct : vTxid.Nodup)
    (count : tree.nTransactions.toNat = vTxid.length)
    (inside : ∀ p ∈ combined (pairHash hash) height vTxid, p ∈ pairs)
    (node : pos < width vTxid.length height) {moreBits moreHashes}
    (bits : tree.vBits.drop s.nBitsUsed
      = (traverseAndBuild hash vTxid vMatch height pos).1 ++ moreBits)
    (hashes : tree.vHash.drop s.nHashUsed
      = (traverseAndBuild hash vTxid vMatch height pos).2 ++ moreHashes)
    : tree.traverseAndExtract hash height pos s = (calcHash hash vTxid height pos, {
        nBitsUsed := s.nBitsUsed + (traverseAndBuild hash vTxid vMatch height pos).1.length
        nHashUsed := s.nHashUsed + (traverseAndBuild hash vTxid vMatch height pos).2.length
        vMatch := s.vMatch ++ matchedBelow vTxid vMatch height pos
        fBad := s.fBad }) := by
  induction height generalizing pos s moreBits moreHashes with
  | zero =>
    rw [traverseAndExtract_zero (head_of_drop bits), useHash, head_of_drop hashes]
    rw [width_zero] at node
    simp only [traverseAndBuild, matchedBelow, parentOfMatch, below_zero node, any_cons,
      filter_cons]
    cases vMatch.getD pos false <;> simp [calcHash]
  | succ height ih =>
    have lower : ∀ p ∈ combined (pairHash hash) height vTxid, p ∈ pairs := fun p mem =>
      inside p (combined_subset (le_succ height) p mem)
    by_cases parent : parentOfMatch vTxid vMatch (height + 1) pos = true
    · simp only [traverseAndBuild, if_pos parent, cons_append, append_assoc] at bits hashes ⊢
      have leftBits := tail_of_drop bits
      have left := ih (s := { s with nBitsUsed := s.nBitsUsed + 1 }) lower
        (left_lt_width node) leftBits hashes
      rw [calcHash]
      by_cases inner : pos * 2 + 1 < width vTxid.length height
      · have different := calcHash_ne free lower distinct inner (left_lt_width node)
          (succ_ne_self _)
        simp only [calcTreeWidth_eq, if_pos inner] at leftBits hashes ⊢
        have right := ih (s := (tree.traverseAndExtract hash height (pos * 2) _).2) lower
          inner (by rw [left]; exact drop_append leftBits)
          (by rw [left]; exact drop_append hashes)
        rw [left] at right
        rw [traverseAndExtract_both (head_of_drop bits) (by rwa [count]) left right]
        simp only [beq_eq_false_iff_ne.mpr different, Bool.or_false, length_cons,
          length_append, append_assoc, add_assoc, add_comm 1, matchedBelow, below_succ,
          filter_append, map_append]
      · have beyond : below vTxid height (pos * 2 + 1) = [] := below_eq_nil (not_lt.mp inner)
        simp only [calcTreeWidth_eq, if_neg inner] at leftBits hashes ⊢
        rw [traverseAndExtract_left (head_of_drop bits) (by rwa [count]) left]
        simp [matchedBelow, below_succ, beyond, add_assoc, add_comm 1]
    · simp only [traverseAndBuild, if_neg parent] at bits hashes ⊢
      rw [traverseAndExtract_stop (head_of_drop bits), useHash, head_of_drop hashes, matchedBelow,
        filter_eq_nil_iff.mpr (any_eq_false.mp (Bool.not_eq_true _ ▸ parent))]
      simp

theorem length_packBits (vBits : List Bool) : (packBits vBits).length = (vBits.length + 7) / 8 := by
  rw [packBits, length_map, length_range]

/-- The bits are read back, with padding up to a whole byte. -/
theorem unpackBits_packBits (vBits : List Bool)
    : unpackBits (packBits vBits)
      = vBits ++ List.replicate ((vBits.length + 7) / 8 * 8 - vBits.length) false := by
  have bit {p : Nat} (inside : p < (vBits.length + 7) / 8 * 8)
      : ((packBits vBits).getD (p / 8) 0 &&& (1 <<< UInt8.ofNat (p % 8)) != 0)
        = vBits.getD p false := by
    have byte : (packBits vBits).getD (p / 8) 0
        = packByte fun k => vBits.getD (8 * (p / 8) + k) false := by
      rw [getD_eq_getElem?_getD, packBits, getElem?_map, getElem?_range (by omega)]
      rfl
    rw [byte]
    have read := packByte_bit (fun k => vBits.getD (8 * (p / 8) + k) false)
      ⟨p % 8, mod_lt p (by decide)⟩
    rwa [div_add_mod] at read
  refine ext_getElem? fun p => ?_
  rcases lt_or_ge p ((vBits.length + 7) / 8 * 8) with inside | beyond
  · rw [unpackBits, getElem?_map, length_packBits, getElem?_range inside,
      Option.map_some, bit inside, getD_eq_getElem?_getD]
    rcases lt_or_ge p vBits.length with data | padding
    · rw [getElem?_append_left data, getElem?_eq_getElem data, Option.getD_some]
    · rw [getElem?_append_right padding, getElem?_eq_none padding,
        getElem?_replicate_of_lt (by omega), Option.getD_none]
  · rw [getElem?_eq_none, getElem?_eq_none]
    · rw [length_append, length_replicate]
      omega
    · rw [unpackBits, length_map, length_range, length_packBits]
      exact beyond

variable (tree) in
theorem reads_tree (bits : (tree.vBits.length + 7) / 8 ≤ maxSize.toNat)
    (hashes : tree.vHash.length ≤ maxSize.toNat)
    : Reads unserialize tree.serialize { tree with
        vBits := unpackBits (packBits tree.vBits)
        fBad := false } := by
  refine (reads32 _).bind ((reads_vector hashes fun h _ => reads_bytes h).bind ?_)
  refine (reads_vector ?_ fun byte _ => reads8 byte).map
  rwa [length_packBits]

variable (tree) in
/-- Extraction reports the root and the matches once everything is consumed. -/
theorem extractMatches_eq {root} (nonempty : tree.nTransactions.toNat ≠ 0)
    (bound : tree.nTransactions.toNat ≤ maxBlockSize / 60)
    (hashes : tree.vHash.length ≤ tree.nTransactions.toNat)
    (bits : tree.vHash.length ≤ tree.vBits.length)
    (run : tree.traverseAndExtract hash (treeHeight tree.nTransactions.toNat) 0
      { fBad := tree.fBad } = (root, last)) (good : last.fBad = false)
    (bitsUsed : (last.nBitsUsed + 7) / 8 = (tree.vBits.length + 7) / 8)
    (hashUsed : last.nHashUsed = tree.vHash.length)
    : tree.extractMatches hash = (root, last.vMatch) := by
  simp only [extractMatches, if_neg nonempty, if_neg (not_lt.mpr bound),
    if_neg (not_lt.mpr hashes), if_neg (not_lt.mpr bits), calcTreeHeight_eq, run, good,
    Bool.false_eq_true, if_false, bitsUsed, hashUsed, ne_eq, not_true]

/-- `CalcHash` of the topmost node is the root of the block. -/
theorem calcHash_top (nonempty : vTxid ≠ [])
    : calcHash hash vTxid (treeHeight vTxid.length) 0 = merkleRoot hash vTxid := by
  have top := getElem?_level hash (width_pos (treeHeight vTxid.length) nonempty)
  rw [level_eq_root hash nonempty] at top
  exact (Option.some.inj top).symm

/-- A tree that is built for a mask, written and read back gives the matched txids and the
root.
-/
theorem extractMatches_unserialize
    (free : Set.InjOn (uncurry (pairHash hash)) {p | p ∈ merklePairs hash vTxid})
    (distinct : vTxid.Nodup) (nonempty : vTxid ≠ []) (bound : vTxid.length ≤ maxBlockSize / 60)
    (size : vMatch.length = vTxid.length)
    : ∃ read, unserialize (ofTxids hash vTxid vMatch).serialize = .ok (read, [])
      ∧ read.extractMatches hash = (merkleRoot hash vTxid, matched vTxid vMatch) := by
  have node := width_pos (treeHeight vTxid.length) nonempty
  have count : (ofTxids hash vTxid vMatch).nTransactions.toNat = vTxid.length :=
    UInt32.toNat_ofNat_of_lt' (lt_of_le_of_lt bound (by decide))
  obtain ⟨built, built_eq⟩ : ∃ built, built
      = traverseAndBuild hash vTxid vMatch (treeHeight vTxid.length) 0 := ⟨_, rfl⟩
  have vBits : (ofTxids hash vTxid vMatch).vBits = built.1 := by
    rw [ofTxids, calcTreeHeight_eq, built_eq]
  have vHash : (ofTxids hash vTxid vMatch).vHash = built.2 := by
    rw [ofTxids, calcTreeHeight_eq, built_eq]
  -- the sizes that are written are far below the limit for reading
  have top : treeHeight vTxid.length ≤ 16 := by
    rw [treeHeight_le_iff, width_le_iff]
    exact bound.trans (by decide)
  obtain ⟨hashBits, bitCount, hashCount⟩ := length_traverseAndBuild node built_eq.symm
  rw [below_top, length_range] at hashCount
  replace bitCount :=
    bitCount.trans_le (Nat.pow_le_pow_right (n := 2) (by decide) (succ_le_succ top))
  have limits : maxBlockSize / 60 ≤ maxSize.toNat ∧ 2 ^ 17 ≤ maxSize.toNat := by decide
  have read := reads_tree (ofTxids hash vTxid vMatch) (by rw [vBits]; omega)
    (by rw [vHash]; omega) []
  rw [append_nil, vBits, unpackBits_packBits] at read
  refine ⟨_, read, ?_⟩
  have run := traverseAndExtract_build { ofTxids hash vTxid vMatch with
      vBits := built.1 ++ replicate ((built.1.length + 7) / 8 * 8 - built.1.length) false
      fBad := false } vMatch (s := {}) free distinct count (fun p mem => mem) node
    (by rw [← built_eq]; rfl) (by rw [← built_eq, ← vHash]; exact (append_nil _).symm)
  rw [← built_eq, calcHash_top nonempty, matchedBelow_top size] at run
  refine extractMatches_eq _ ?_ ?_ ?_ ?_ (count ▸ run) rfl ?_ ?_
  · exact count ▸ (length_pos_iff.mpr nonempty).ne'
  · exact count ▸ bound
  · exact count ▸ vHash ▸ hashCount
  · rw [length_append]
    exact vHash ▸ hashBits.trans (le_add_right _ _)
  · change (0 + built.1.length + 7) / 8 = _
    rw [length_append, length_replicate]
    omega
  · exact vHash ▸ zero_add _

variable (hash tree) in
/-- The pairs that `TraverseAndExtract` hashes. -/
def traversedPairs : Nat → Nat → Extraction → List (Uint256 × Uint256)
  | 0, _, _ => []
  | height + 1, pos, s =>
    if tree.vBits[s.nBitsUsed]? = some true then
      let s := { s with nBitsUsed := s.nBitsUsed + 1 }
      let (left, middle) := tree.traverseAndExtract hash height (pos * 2) s
      if pos * 2 + 1 < calcTreeWidth tree.nTransactions.toNat height then
        let (right, _) := tree.traverseAndExtract hash height (pos * 2 + 1) middle
        (left, right) :: (traversedPairs height (pos * 2) s
          ++ traversedPairs height (pos * 2 + 1) middle)
      else (left, left) :: traversedPairs height (pos * 2) s
    else []

variable (hash tree) in
/-- The pairs that `ExtractMatches` hashes. -/
def extractedPairs : List (Uint256 × Uint256) :=
  traversedPairs hash tree (treeHeight tree.nTransactions.toNat) 0 { fBad := tree.fBad }

theorem useHash_good {matched} (run : tree.useHash matched s = (h, last)) (good : last.fBad = false)
    : s.fBad = false ∧ last.vMatch = s.vMatch ++ if matched then [h] else [] := by
  unfold useHash at run
  split at run
  · cases run
    cases good
  · cases run
    cases matched <;> exact ⟨good, by simp⟩

/-- A traversal that did not go wrong found a bit. -/
theorem traverseAndExtract_read (run : tree.traverseAndExtract hash height pos s = (h, last))
    (good : last.fBad = false)
    : ∃ bit, tree.vBits[s.nBitsUsed]? = some bit := by
  cases read : tree.vBits[s.nBitsUsed]? with
  | none =>
    rw [traverseAndExtract, read] at run
    obtain ⟨_, rfl⟩ := Prod.mk.inj run
    cases good
  | some bit => exact ⟨bit, rfl⟩

/-- It used a stored hash, or descended into one subtree or both. -/
theorem traverseAndExtract_cases (run : tree.traverseAndExtract hash (height + 1) pos s = (h, last))
    (good : last.fBad = false)
    : tree.useHash false { s with nBitsUsed := s.nBitsUsed + 1 } = (h, last)
      ∨ tree.vBits[s.nBitsUsed]? = some true
        ∧ ∃ left middle, tree.traverseAndExtract hash height (pos * 2)
            { s with nBitsUsed := s.nBitsUsed + 1 } = (left, middle)
          ∧ ((pos * 2 + 1 < width tree.nTransactions.toNat height
              ∧ ∃ right finish, tree.traverseAndExtract hash height (pos * 2 + 1) middle
                  = (right, finish)
                ∧ h = pairHash hash left right ∧ finish.fBad = false
                ∧ last.vMatch = finish.vMatch)
            ∨ (¬ pos * 2 + 1 < width tree.nTransactions.toNat height
              ∧ h = pairHash hash left left ∧ last = middle)) := by
  obtain ⟨bit, read⟩ := traverseAndExtract_read run good
  cases bit with
  | false =>
    rw [traverseAndExtract_stop read] at run
    exact .inl run
  | true =>
    refine .inr ⟨read, _, _, rfl, ?_⟩
    by_cases inner : pos * 2 + 1 < width tree.nTransactions.toNat height
    · rw [traverseAndExtract_both read inner rfl rfl] at run
      cases run
      exact .inl ⟨inner, _, _, rfl, rfl, (Bool.or_eq_false_iff.mp good).1, rfl⟩
    · rw [traverseAndExtract_left read inner rfl] at run
      cases run
      exact .inr ⟨inner, rfl, rfl⟩

/-- A failure is not forgotten. -/
theorem traverseAndExtract_good (run : tree.traverseAndExtract hash height pos s = (h, last))
    (good : last.fBad = false)
    : s.fBad = false := by
  induction height generalizing pos s h last with
  | zero =>
    obtain ⟨bit, read⟩ := traverseAndExtract_read run good
    rw [traverseAndExtract_zero read] at run
    exact (useHash_good run good).1
  | succ height ih =>
    rcases traverseAndExtract_cases run good with used | ⟨_, left, middle, first, rest⟩
    · exact (useHash_good used good).1
    have start (middleGood : middle.fBad = false) : s.fBad = false :=
      ih (s := { s with nBitsUsed := s.nBitsUsed + 1 }) first middleGood
    rcases rest with ⟨_, right, finish, second, _, finished, _⟩ | ⟨_, _, rfl⟩
    · exact start (ih second finished)
    · exact start good

/-- Bits and hashes that lead to a node of a block's tree give txids below that node, in the
order of the block. The induction descends both trees, whose nodes have to agree as long as the
hash does not collide.
-/
theorem traverseAndExtract_sound {pairs} (free : Set.InjOn (uncurry (pairHash hash)) pairs)
    (count : tree.nTransactions.toNat = vTxid.length)
    (inside : ∀ p ∈ combined (pairHash hash) height vTxid, p ∈ pairs)
    (traversed : ∀ p ∈ traversedPairs hash tree height pos s, p ∈ pairs)
    (node : pos < width vTxid.length height)
    (run : tree.traverseAndExtract hash height pos s = (calcHash hash vTxid height pos, last))
    (good : last.fBad = false)
    : ∃ found, last.vMatch = s.vMatch ++ found
      ∧ found.Sublist ((below vTxid height pos).map fun p => vTxid.getD p .null) := by
  induction height generalizing pos s last with
  | zero =>
    obtain ⟨bit, read⟩ := traverseAndExtract_read run good
    rw [traverseAndExtract_zero read] at run
    rw [width_zero] at node
    refine ⟨_, (useHash_good run good).2, ?_⟩
    rw [below_zero node]
    cases bit
    · exact nil_sublist _
    · exact List.Sublist.refl _
  | succ height ih =>
    have lower : ∀ p ∈ combined (pairHash hash) height vTxid, p ∈ pairs := fun p mem =>
      inside p (combined_subset (le_succ height) p mem)
    have pair := inside _ (children_mem_combined node)
    rcases traverseAndExtract_cases run good with used | ⟨read, left, middle, first, rest⟩
    · exact ⟨[], (useHash_good used good).2, nil_sublist _⟩
    rw [calcHash, calcTreeWidth_eq, count] at rest
    rw [below_succ, map_append]
    simp only [traversedPairs, read, if_true, first, calcTreeWidth_eq, count] at traversed
    rcases rest with ⟨inner, right, finish, second, same, finished, kept⟩ | ⟨odd, same, rfl⟩
    · simp only [if_pos inner, second, forall_mem_cons, forall_mem_append] at traversed
      have agree := free pair traversed.1 same
      rw [children, if_pos inner] at agree
      obtain ⟨rfl, rfl⟩ := agree
      obtain ⟨found, appended, listed⟩ := ih lower traversed.2.1 (left_lt_width node) first
        (traverseAndExtract_good second finished)
      obtain ⟨more, later, listedLater⟩ := ih lower traversed.2.2 inner second finished
      refine ⟨found ++ more, ?_, listed.append listedLater⟩
      rw [kept, later, appended, append_assoc]
    · simp only [if_neg odd, forall_mem_cons] at traversed
      have agree := free pair traversed.1 same
      rw [children, if_neg odd] at agree
      obtain ⟨rfl, _⟩ := agree
      obtain ⟨found, appended, listed⟩ := ih lower traversed.2 (left_lt_width node) first good
      exact ⟨found, appended, listed.trans (sublist_append_left _ _)⟩

/-- A root that is not null was found by a traversal without failure. -/
theorem extractMatches_ne_null {root vMatch} (run : tree.extractMatches hash = (root, vMatch))
    (found : root ≠ .null)
    : ∃ last, tree.traverseAndExtract hash (treeHeight tree.nTransactions.toNat) 0
        { fBad := tree.fBad } = (root, last)
      ∧ last.fBad = false ∧ last.vMatch = vMatch := by
  have failed {vMatch other : List Uint256} (early : (Uint256.null, other) = (root, vMatch))
      : False :=
    found (Prod.mk.inj early).1.symm
  simp only [extractMatches, calcTreeHeight_eq] at run
  split_ifs at run with _ _ _ _ bad
  all_goals first | exact (failed run).elim | skip
  obtain ⟨rfl, rfl⟩ := Prod.mk.inj run
  exact ⟨_, rfl, Bool.not_eq_true _ ▸ bad, rfl⟩

theorem map_getD_range (vTxid : List Uint256)
    : ((List.range vTxid.length).map fun p => vTxid.getD p .null) = vTxid := by
  refine ext_getElem (by simp) fun i _ inside => ?_
  rw [getElem_map, getElem_range, getD_eq_getElem _ _ inside]

/-- Any tree whose extraction gives the root of a block, that root not being null, gives txids
of the block in its order.
-/
theorem extractMatches_sublist {vMatch} (free : Set.InjOn (uncurry (pairHash hash))
      {p | p ∈ merklePairs hash vTxid ∨ p ∈ extractedPairs hash tree}) (nonempty : vTxid ≠ [])
    (count : tree.nTransactions.toNat = vTxid.length)
    (run : tree.extractMatches hash = (merkleRoot hash vTxid, vMatch))
    (known : merkleRoot hash vTxid ≠ .null)
    : vMatch.Sublist vTxid := by
  obtain ⟨last, traversal, good, rfl⟩ := extractMatches_ne_null run known
  rw [count, ← calcHash_top nonempty] at traversal
  obtain ⟨found, appended, listed⟩ := traverseAndExtract_sound free count
    (fun p mem => .inl mem)
    (fun p mem => .inr (by rwa [extractedPairs, count])) (width_pos _ nonempty)
    traversal good
  rw [below_top, map_getD_range] at listed
  rwa [appended]

end Extract

/-- Partial Merkle trees are complete and sound for the txids of a block. What is built for a
mask, written and read back gives the matched txids and the block's root. Whatever tree gives
the block's root, unless that is the null hash that stands for a failure, gives txids of the
block in the block's order. And every branch leads from its txid to the root.
-/
theorem complete_and_sound {hash : Bytes → Uint256} {block : CBlock}
    (nonempty : block.txids ≠ []) (distinct : block.txids.Nodup)
    (bound : block.txids.length ≤ maxBlockSize / 60)
    : (∀ vMatch : List Bool, vMatch.length = block.txids.length
        → Set.InjOn (Function.uncurry (pairHash hash)) {p | p ∈ merklePairs hash block.txids}
        → ∃ read, unserialize (ofTxids hash block.txids vMatch).serialize = .ok (read, [])
          ∧ read.extractMatches hash
            = ((block.buildMerkleTree hash).1, matched block.txids vMatch))
      ∧ (∀ (tree : CPartialMerkleTree) (vMatch : List Uint256),
        tree.nTransactions.toNat = block.txids.length
        → Set.InjOn (Function.uncurry (pairHash hash))
          {p | p ∈ merklePairs hash block.txids ∨ p ∈ extractedPairs hash tree}
        → tree.extractMatches hash = ((block.buildMerkleTree hash).1, vMatch)
        → (block.buildMerkleTree hash).1 ≠ .null
        → vMatch.Sublist block.txids)
      ∧ ∀ (i : Nat) (txid : Uint256), block.txids[i]? = some txid
        → checkMerkleBranch hash txid (block.getMerkleBranch hash i) i
          = (block.buildMerkleTree hash).1 := by
  refine ⟨fun vMatch size free => ?_, fun tree vMatch count free run known => ?_,
    fun i txid listed => checkMerkleBranch_getMerkleBranch listed⟩
  · rw [CBlock.buildMerkleTree_eq]
    exact extractMatches_unserialize free distinct nonempty bound size
  · rw [CBlock.buildMerkleTree_eq] at run known
    exact extractMatches_sublist free nonempty count run known

/-- A block with three transactions. -/
def threeTxids : CBlock where
  vtx := [1, 2, 3].map fun n => { hash := List.Vector.replicate 32 n }

theorem complete_and_sound_second
    : ∃ read, unserialize
        (ofTxids firstBytesHash threeTxids.txids [false, true, false]).serialize = .ok (read, [])
      ∧ read.extractMatches firstBytesHash
        = ((threeTxids.buildMerkleTree firstBytesHash).1, [List.Vector.replicate 32 2]) := by
  have nonempty : threeTxids.txids ≠ [] := by decide
  exact (complete_and_sound nonempty (by decide) (by decide)).1 [false, true, false] rfl
    (injOn_of_all (by decide +kernel))

/-- A block whose root is null, as its only txid is, cannot be told from a failure: here the
tree has a byte of bits too many, and the hash it gives is not a txid of the block.
-/
theorem failure_gives_null_root
    : ∃ (hash : Bytes → Uint256) (block : CBlock) (tree : CPartialMerkleTree)
        (vMatch : List Uint256),
      block.txids ≠ [] ∧ block.txids.Nodup ∧ block.txids.length ≤ maxBlockSize / 60
      ∧ (∀ tx ∈ block.vtx, tx.toCMutableTransaction.serialize.map hash = .ok tx.hash)
      ∧ tree.nTransactions.toNat = block.txids.length
      ∧ Set.InjOn (Function.uncurry (pairHash hash))
        {p | p ∈ merklePairs hash block.txids ∨ p ∈ extractedPairs hash tree}
      ∧ tree.extractMatches hash = ((block.buildMerkleTree hash).1, vMatch)
      ∧ ∃ txid ∈ vMatch, txid ∉ block.txids := by
  let tree : CPartialMerkleTree := {
    nTransactions := 1
    vBits := replicate 16 true
    vHash := [List.Vector.replicate 32 1]
    fBad := false }
  refine ⟨fun _ => .null, { vtx := [{ hash := .null }] }, tree, tree.vHash, by decide, by decide,
    by decide, by decide +kernel, rfl, ?_, by decide +kernel, List.Vector.replicate 32 1,
    mem_singleton_self _, by decide⟩
  have noPairs : extractedPairs (fun _ => .null) tree = [] := by decide +kernel
  rw [merklePairs_of_length_le_one _ (by decide), noPairs]
  intro p mem
  simp at mem

end CPartialMerkleTree

end Resistance.Primitives

import Resistance.BlockTree.Linking

/-! `AddToBlockIndex` puts a block without data on top of its parent and changes nothing else
of the tree.
-/

namespace Resistance.BlockTree

open List Primitives Lib.Forest Nat

namespace Tree

variable {tree after : Tree} {hash : Uint256} {block : CBlockHeader} {address p : Pointer}

theorem mem_blocks_of_find (found : tree.find hash = some p)
    : p ∈ tree.blocks := by
  rw [find, lookup_eq_some_iff] at found
  obtain ⟨before, rest, split, -⟩ := found
  rw [blocks, split]
  simp

/-- The header's hash and its predecessor. -/
structure HeaderAdded (tree : Tree) (hash : Uint256) (block : CBlockHeader) (address : Pointer)
    (after : Tree) : Prop where
  mapBlockIndex : after.mapBlockIndex = (hash, address) :: tree.mapBlockIndex
  entry : after.index address = tree.newBlockIndex hash block (tree.find block.hashPrevBlock)
  other : ∀ p, p ≠ address → after.index p = tree.index p
  candidates : after.setBlockIndexCandidates = tree.setBlockIndexCandidates
  unlinked : after.mapBlocksUnlinked = tree.mapBlocksUnlinked
  chainActive : after.chainActive = tree.chainActive

theorem getAncestorLoop_with (mapBlockIndex) (height fuel : Nat) (p : Pointer) (walk : Nat)
    : { tree with mapBlockIndex }.getAncestorLoop height fuel p walk
      = tree.getAncestorLoop height fuel p walk := by
  induction fuel generalizing p walk with
  | zero => rfl
  | succ fuel ih => simp only [getAncestorLoop, ih]

/-- A hash that is not its own predecessor's, and not known yet, gets a new entry. -/
theorem addToBlockIndex_new (new : tree.find hash = none) (ne : block.hashPrevBlock ≠ hash)
    : HeaderAdded tree hash block address (tree.addToBlockIndex hash block address).2 := by
  have parent : { tree with mapBlockIndex := (hash, address) :: tree.mapBlockIndex }.find
      block.hashPrevBlock = tree.find block.hashPrevBlock := by
    simp [find, lookup_cons, beq_false_of_ne ne]
  simp only [addToBlockIndex, new, parent]
  refine ⟨rfl, ?_, fun p ne => if_neg ne, rfl, rfl, rfl⟩
  refine (if_pos rfl).trans ?_
  simp only [newBlockIndex, getAncestor, getAncestorLoop_with]

theorem addToBlockIndex_known (known : tree.find hash = some p)
    : tree.addToBlockIndex hash block address = (p, tree) := by
  rw [addToBlockIndex, known]

section Added

variable (added : HeaderAdded tree hash block address after)

include added

theorem HeaderAdded.blocks : after.blocks = address :: tree.blocks := by
  rw [Tree.blocks, added.mapBlockIndex]
  rfl

theorem HeaderAdded.pprev
    : (after.index address).pprev = tree.find block.hashPrevBlock := by
  rw [added.entry]
  rfl

variable (formed : tree.WellFormed) (fresh : address ∉ tree.blocks)

include fresh

theorem HeaderAdded.index_of_mem (mem : p ∈ tree.blocks)
    : after.index p = tree.index p := by
  apply added.other
  rintro rfl
  exact fresh mem

/-- Every block is the new one, or as it was. -/
theorem HeaderAdded.block_cases (mem : p ∈ after.blocks)
    : p = address ∨ (p ∈ tree.blocks ∧ after.index p = tree.index p) := by
  rw [added.blocks] at mem
  rcases mem_cons.mp mem with rfl | old
  · exact .inl rfl
  · exact .inr ⟨old, added.index_of_mem fresh old⟩

include formed

/-- The parent of a block in the tree is another block. -/
theorem HeaderAdded.pprev_ne {q} (child : (tree.index p).pprev = some q)
    : q ≠ address := by
  rintro rfl
  by_cases mem : p ∈ tree.blocks
  · exact fresh (formed.closed p q mem child)
  · rw [formed.unused p mem] at child
    cases child

theorem HeaderAdded.wellFormed : after.WellFormed := by
  have parentOfNew : ∀ {q}, (after.index address).pprev = some q → q ∈ tree.blocks := by
    intro q child
    rw [added.pprev] at child
    exact mem_blocks_of_find child
  refine ⟨⟨?_, ?_⟩, ?_, ?_, ?_, ?_⟩
  · intro p root
    by_cases same : p = address
    · subst same
      rw [added.pprev] at root
      rw [added.entry, root]
      rfl
    · rw [added.other p same] at root ⊢
      exact formed.graded.root root
  · intro p q child
    by_cases same : p = address
    · subst same
      have other := added.index_of_mem fresh (parentOfNew child)
      rw [added.pprev] at child
      rw [other, added.entry, child]
      rfl
    · rw [added.other p same] at child ⊢
      rw [added.other q (added.pprev_ne formed fresh child)]
      exact formed.graded.child child
  · intro p q mem child
    rw [added.blocks] at mem ⊢
    apply mem_cons_of_mem
    rcases mem_cons.mp mem with rfl | mem
    · exact parentOfNew child
    · rw [added.index_of_mem fresh mem] at child
      exact formed.closed p q mem child
  · rw [added.blocks]
    exact nodup_cons.mpr ⟨fresh, formed.distinct⟩
  · intro other p found
    rw [added.mapBlockIndex, lookup_cons] at found
    split at found
    next same =>
      cases found
      rw [added.entry]
      exact (eq_of_beq same).symm
    next =>
      rw [added.index_of_mem fresh (mem_blocks_of_find found)]
      exact formed.hashes other p found
  · intro p outside
    rw [added.blocks, mem_cons, not_or] at outside
    rw [added.other p outside.1]
    exact formed.unused p outside.2

theorem HeaderAdded.path_of_mem (mem : p ∈ tree.blocks)
    : after.path p = tree.path p := by
  have parents : ∀ q, q ∈ tree.blocks → (after.index q).pprev = (tree.index q).pprev :=
    fun q inside => congrArg CBlockIndex.pprev (added.index_of_mem fresh inside)
  have heights : ∀ q, q ∈ tree.blocks → (after.index q).nHeight = (tree.index q).nHeight :=
    fun q inside => congrArg CBlockIndex.nHeight (added.index_of_mem fresh inside)
  exact formed.graded.lineage_congr (· ∈ tree.blocks) formed.closed parents heights mem

omit formed fresh in
/-- A header comes without data. -/
theorem HeaderAdded.new_not_linked
    : after.hasData address = false ∧ after.linked address = false := by
  rw [hasData, linked, added.entry]
  exact ⟨rfl, rfl⟩

omit formed in
theorem HeaderAdded.old_of_data (mem : p ∈ after.blocks) (data : after.hasData p = true)
    : p ∈ tree.blocks ∧ after.index p = tree.index p ∧ tree.hasData p = true := by
  rcases added.block_cases fresh mem with rfl | ⟨old, same⟩
  · rw [added.new_not_linked.1] at data
    cases data
  · rw [hasData, same] at data
    exact ⟨old, same, data⟩

omit formed in
theorem HeaderAdded.old_of_linked (mem : p ∈ after.blocks) (isLinked : after.linked p = true)
    : p ∈ tree.blocks ∧ after.index p = tree.index p ∧ tree.linked p = true := by
  rcases added.block_cases fresh mem with rfl | ⟨old, same⟩
  · rw [added.new_not_linked.2] at isLinked
    cases isLinked
  · rw [linked, same] at isLinked
    exact ⟨old, same, isLinked⟩

theorem HeaderAdded.linking (linking : tree.Linking []) : after.Linking [] := by
  have parents : ∀ {p}, p ∈ tree.blocks → ∀ q, (tree.index p).pprev = some q
      → after.index q = tree.index q :=
    fun {p} mem q child => added.index_of_mem fresh (formed.closed p q mem child)
  constructor
  · intro p mem isLinked
    obtain ⟨mem, same, isLinked⟩ := added.old_of_linked fresh mem isLinked
    rw [hasData, same]
    exact linking.data p mem isLinked
  · intro p mem isLinked
    obtain ⟨mem, same, isLinked⟩ := added.old_of_linked fresh mem isLinked
    rw [parentLinked, prev_eq (congrArg _ same) (parents mem)]
    exact linking.parent p mem isLinked
  · intro p mem isLinked
    obtain ⟨mem, same, isLinked⟩ := added.old_of_linked fresh mem isLinked
    exact (linking.totals p mem isLinked).congr same (parents mem)
  · intro p mem data notYet
    obtain ⟨mem, same, data⟩ := added.old_of_data fresh mem data
    rw [linked, same] at notYet
    rw [added.unlinked, same]
    exact linking.waiting p mem data notYet
  · intro q p listed
    rw [added.unlinked] at listed
    obtain ⟨mem, child, data, notYet, parent⟩ := linking.unlinked q p listed
    have same := added.index_of_mem fresh mem
    rw [added.blocks, hasData, linked, linked, same, parents mem q child]
    exact ⟨mem_cons_of_mem _ mem, child, data, notYet, parent⟩
  · intro p queued
    cases queued
  · rw [added.unlinked]
    exact linking.distinct
  intro p mem notYet
  rcases added.block_cases fresh mem with rfl | ⟨mem, same⟩
  · rw [added.entry]
    exact ⟨rfl, rfl⟩
  · rw [linked, same] at notYet
    rw [same]
    exact linking.blank p mem notYet

end Added

end Tree

/-! The skip pointers of `chain.cpp`: `GetAncestor` finds the ancestor at a height, however it
jumps on the way.
-/

namespace Tree

theorem invertLowestOne_lt {n} (pos : 0 < n) : invertLowestOne n < n :=
  lt_of_le_of_lt and_le_right (sub_lt pos one_pos)

theorem getSkipHeight_lt {height} (pos : 0 < height) : getSkipHeight height < height := by
  unfold getSkipHeight
  split
  · exact pos
  split
  next odd =>
    have first : invertLowestOne (height - 1) < height - 1 := invertLowestOne_lt (by omega)
    have second : invertLowestOne (invertLowestOne (height - 1))
        ≤ invertLowestOne (height - 1) := and_le_left
    omega
  next => exact invertLowestOne_lt pos

/-- Every skip pointer points to the ancestor at the skip height. -/
def Skips (tree : Tree) : Prop :=
  ∀ p skip, (tree.index p).pskip = some skip
    → skip ∈ tree.path p ∧ (tree.index skip).nHeight = getSkipHeight (tree.index p).nHeight

variable {tree : Tree}

section

variable (formed : tree.WellFormed) (skips : tree.Skips)
include formed skips

theorem getAncestorLoop_ok {height fuel walk} (above : height ≤ (tree.index walk).nHeight)
    (enough : (tree.index walk).nHeight ≤ fuel)
    : ∃ q, tree.getAncestorLoop height fuel walk (tree.index walk).nHeight = some q
      ∧ q ∈ tree.path walk ∧ (tree.index q).nHeight = height := by
  -- Every round goes to a lower ancestor that is not below the height sought.
  induction fuel generalizing walk with
  | zero => exact ⟨walk, rfl, formed.graded.self_mem walk, by omega⟩
  | succ fuel ih =>
    have parentStep : height < (tree.index walk).nHeight
        → ∃ q, ((tree.index walk).pprev.bind fun pprev =>
            tree.getAncestorLoop height fuel pprev ((tree.index walk).nHeight - 1)) = some q
          ∧ q ∈ tree.path walk ∧ (tree.index q).nHeight = height := by
      intro higher
      cases child : (tree.index walk).pprev with
      | none =>
        have root := formed.graded.root child
        omega
      | some pprev =>
        have level := formed.graded.child child
        have notBelow : height ≤ (tree.index pprev).nHeight := by omega
        obtain ⟨q, found, ancestor, exact⟩ := ih notBelow (by omega)
        refine ⟨q, ?_, formed.graded.mem_of_child child ancestor, exact⟩
        rw [level]
        exact found
    rw [getAncestorLoop]
    split
    next higher =>
      split
      next skip pointer =>
        dsimp only
        split
        next follow =>
          obtain ⟨ancestor, level⟩ := skips walk skip pointer
          have lower := getSkipHeight_lt (zero_lt_of_lt higher)
          have notBelow : height ≤ (tree.index skip).nHeight := by
            rw [level]
            rcases follow with same | ⟨higher, -⟩
            · exact same.ge
            · exact le_of_lt higher
          obtain ⟨q, found, below, exact⟩ := ih notBelow (by omega)
          rw [level] at found
          exact ⟨q, found, formed.graded.ancestor_trans ancestor below, exact⟩
        next => exact parentStep higher
      next => exact parentStep higher
    next low => exact ⟨walk, rfl, formed.graded.self_mem walk, by omega⟩

/-- `GetAncestor` returns the ancestor at the height. -/
theorem getAncestor_ok {p height} (below : height ≤ (tree.index p).nHeight)
    : ∃ q, tree.getAncestor p height = some q ∧ q ∈ tree.path p
      ∧ (tree.index q).nHeight = height := by
  rw [getAncestor, if_neg (by omega)]
  exact getAncestorLoop_ok formed skips below (le_refl _)

/-- The test of `ReconsiderBlock` for descendants. -/
theorem getAncestor_eq_iff {p q}
    : tree.getAncestor q (tree.index p).nHeight = some p ↔ p ∈ tree.path q := by
  constructor
  · intro found
    by_cases below : (tree.index p).nHeight ≤ (tree.index q).nHeight
    · obtain ⟨r, foundToo, ancestor, -⟩ := getAncestor_ok formed skips below
      cases found.symm.trans foundToo
      exact ancestor
    · rw [getAncestor, if_pos (.inl (by omega))] at found
      cases found
  · intro ancestor
    have below : (tree.index p).nHeight ≤ (tree.index q).nHeight := formed.graded.height_le ancestor
    obtain ⟨r, found, inPath, level⟩ := getAncestor_ok formed skips below
    have same : r = p := formed.graded.eq_of_height_eq inPath ancestor level
    rw [found, same]

end

section

variable {after : Tree} {hash : Uint256} {block : CBlockHeader} {address : Pointer}
  (added : tree.HeaderAdded hash block address after) (formed : tree.WellFormed)
  (fresh : address ∉ tree.blocks) (jumps : tree.Skips)
include added formed fresh jumps

omit fresh in
/-- The skip pointer of a new header is built from its parent's. -/
theorem HeaderAdded.pskip {q} (parent : tree.find block.hashPrevBlock = some q)
    : ∃ skip, (after.index address).pskip = some skip ∧ skip ∈ tree.path q
      ∧ (tree.index skip).nHeight = getSkipHeight (after.index address).nHeight := by
  have below := getSkipHeight_lt (succ_pos (tree.index q).nHeight)
  obtain ⟨skip, found, ancestor, level⟩ := getAncestor_ok formed jumps (le_of_lt_succ below)
  rw [added.entry, parent]
  exact ⟨skip, found, ancestor, level⟩

theorem HeaderAdded.skips : after.Skips := by
  intro p skip pointer
  by_cases isNew : p = address
  · subst isNew
    cases parent : tree.find block.hashPrevBlock with
    | none =>
      rw [added.entry, parent] at pointer
      cases pointer
    | some q =>
      have mem := mem_blocks_of_find parent
      have child : (after.index p).pprev = some q := added.pprev.trans parent
      obtain ⟨r, found, ancestor, level⟩ := added.pskip formed jumps parent
      cases pointer.symm.trans found
      rw [(added.wellFormed formed fresh).path_child child, added.path_of_mem formed fresh mem,
        added.index_of_mem fresh (formed.path_mem mem ancestor)]
      exact ⟨mem_cons_of_mem _ ancestor, level⟩
  · rw [added.other p isNew] at pointer ⊢
    by_cases mem : p ∈ tree.blocks
    · obtain ⟨ancestor, level⟩ := jumps p skip pointer
      rw [added.path_of_mem formed fresh mem,
        added.index_of_mem fresh (formed.path_mem mem ancestor)]
      exact ⟨ancestor, level⟩
    · rw [formed.unused p mem] at pointer
      cases pointer

end

/-- Trees whose headers were added one after the other. -/
inductive Built : Tree → Prop where
  | start : Built {}
  | add {tree : Tree} (built : Built tree) {hash : Uint256} {block : CBlockHeader}
      {address : Pointer} (fresh : address ∉ tree.blocks) (other : block.hashPrevBlock ≠ hash)
      : Built (tree.addToBlockIndex hash block address).2

/-- Only the genesis block has no skip pointer. -/
theorem Built.skips (built : Built tree)
    : tree.WellFormed ∧ tree.Skips
      ∧ ∀ p ∈ tree.blocks, 0 < (tree.index p).nHeight
        → ∃ skip, (tree.index p).pskip = some skip := by
  induction built with
  | start => exact ⟨wellFormed_start, nofun, nofun⟩
  | @add tree _ hash block address fresh other ih =>
    obtain ⟨formed, skips, set⟩ := ih
    cases known : tree.find hash with
    | some p =>
      rw [addToBlockIndex_known known]
      exact ⟨formed, skips, set⟩
    | none =>
      have added : HeaderAdded tree hash block address _ := addToBlockIndex_new known other
      refine ⟨added.wellFormed formed fresh, added.skips formed fresh skips, ?_⟩
      intro p mem high
      rcases added.block_cases fresh mem with rfl | ⟨old, same⟩
      · cases parent : tree.find block.hashPrevBlock with
        | none =>
          rw [added.entry, parent] at high
          cases high
        | some q =>
          obtain ⟨skip, found, -⟩ := added.pskip formed skips parent
          exact ⟨skip, found⟩
      · rw [same] at high ⊢
        exact set p old high

/-- The walk over skip pointers ends at the block that the same number of parents leads to. -/
theorem Built.getAncestor_eq (built : Built tree) {p : Pointer} (mem : p ∈ tree.blocks)
    : (∀ height ≤ (tree.index p).nHeight, ∃ q, tree.getAncestor p height = some q
        ∧ (Option.bind · fun q => (tree.index q).pprev)^[(tree.index p).nHeight - height] (some p)
          = some q)
      ∧ (1 ≤ (tree.index p).nHeight → getSkipHeight (tree.index p).nHeight < (tree.index p).nHeight
        ∧ ∃ skip, (tree.index p).pskip = some skip
          ∧ (tree.index skip).nHeight = getSkipHeight (tree.index p).nHeight) := by
  obtain ⟨formed, skips, set⟩ := built.skips
  refine ⟨fun height below => ?_, fun high => ⟨getSkipHeight_lt high, ?_⟩⟩
  · obtain ⟨q, found, ancestor, rfl⟩ := getAncestor_ok formed skips below
    exact ⟨q, found, formed.graded.iterate_of_mem ancestor⟩
  · obtain ⟨skip, pointer⟩ := set p mem high
    exact ⟨skip, pointer, (skips p skip pointer).2⟩

/-- A chain of headers, as many as the given number. -/
def headers : Nat → Tree
  | 0 => {}
  | n + 1 => ((headers n).addToBlockIndex (.replicate 32 (.ofNat (n + 1)))
    { hashPrevBlock := .replicate 32 (.ofNat n) } n).2

/-- The header at height 3 has a skip pointer that passes over its parent. -/
theorem getAncestor_eq_four
    : (∃ q, (headers 4).getAncestor 3 (1 : Nat) = some q
        ∧ (Option.bind · fun q => ((headers 4).index q).pprev)^[2] (some 3) = some q)
      ∧ ∃ skip, ((headers 4).index 3).pskip = some skip
        ∧ ((headers 4).index skip).nHeight = 1 := by
  have built : Built (headers 4) :=
    .add (.add (.add (.add .start nofun (by decide)) (by decide +kernel) (by decide))
      (by decide +kernel) (by decide)) (by decide +kernel) (by decide)
  have height : ((headers 4).index 3).nHeight = 3 := by decide +kernel
  obtain ⟨walks, skips⟩ := built.getAncestor_eq (p := 3) (by decide +kernel)
  rw [height] at walks skips
  exact ⟨walks 1 (by decide), (skips (by decide)).2⟩

end Tree

end Resistance.BlockTree

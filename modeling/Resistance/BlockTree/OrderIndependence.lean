import Mathlib.Data.FinEnum
import Resistance.BlockTree.Arrivals

/-! What linking has computed at every moment, as a function of what has arrived: the linked
blocks, their totals, and that both are the same for every order of the same arrivals.
-/

namespace Resistance.BlockTree

open List Primitives Lib.Forest Lib.Checks Lib.Codec CBlockIndex Nat UInt32 BlockTree.Tree

variable {checkpoint : PoolCheckpoint} {source : Source} {arrivals : List Arrival}
  {tree : Tree} {p : Pointer} {n : Nat}

section Orders

variable {otherArrivals : List Arrival} {other : Tree} {p q : Pointer}

/-- A block has the same chain in every tree, whatever the addresses. -/
theorem Known.path_hash (known : Known source arrivals tree) (formed : tree.WellFormed)
    (otherKnown : Known source otherArrivals other) (otherFormed : other.WellFormed)
    (mem : p ∈ tree.blocks) (found : other.find (tree.index p).hash = some q)
    : (other.path q).map (fun r => (other.index r).hash)
      = (tree.path p).map fun r => (tree.index r).hash := by
  induction p using formed.graded.induction generalizing q with
  | step p ih =>
    have inside := mem_blocks_of_find found
    have same : (other.index q).hash = (tree.index p).hash := otherFormed.hashes _ _ found
    have root := known.root p mem
    have otherRoot := otherKnown.root q inside
    rw [same] at otherRoot
    cases child : (tree.index p).pprev with
    | none =>
      rw [formed.path_root child, otherFormed.path_root (otherRoot.mpr (root.mp child)),
        map_singleton, map_singleton, same]
    | some r =>
      cases otherChild : (other.index q).pprev with
      | none =>
        rw [root.mpr (otherRoot.mp otherChild)] at child
        cases child
      | some s =>
        have parent := known.parent p mem r child
        have otherParent := otherKnown.parent q inside s otherChild
        rw [same, ← parent] at otherParent
        have parentFound : other.find (tree.index r).hash = some s :=
          otherParent ▸ otherKnown.found s (otherFormed.closed q s inside otherChild)
        rw [formed.path_child child, otherFormed.path_child otherChild, map_cons,
          map_cons, same, ih r child (formed.closed p r mem child) parentFound]

/-- What is stored of a block about its own and its chain's transactions and values. -/
def CBlockIndex.linkData (entry : CBlockIndex)
    : UInt32 × UInt32 × Option CAmount × Option CAmount :=
  (entry.nTx, entry.nChainTx, entry.nChainSproutValue, entry.nChainSaplingValue)

theorem Source.chain_eq_map_hash (p : Pointer)
    : source.chain tree p = ((tree.path p).map fun q => (tree.index q).hash).map source.block := by
  rw [map_map]
  rfl

/-- What is stored of the last block of a chain, by the hashes of the chain. -/
def Source.linkData (source : Source) (arrivals : List Arrival) (hash : Uint256)
    (hashes : List Uint256)
    : UInt32 × UInt32 × Option CAmount × Option CAmount :=
  (if .block hash ∈ arrivals then ofNat (source.block hash).vtx.length else 0,
    if ∀ hash ∈ hashes, .block hash ∈ arrivals then
      let chain := hashes.map source.block
      (ofNat (chain.map fun block => (ofNat block.vtx.length).toNat).sum,
        some (Int64.ofInt (Chain.sproutPool chain)), some (Int64.ofInt (Chain.saplingPool chain)))
    else (0, none, none))

section

variable (known : Known source arrivals tree) (linking : tree.Linking [])
  (formed : tree.WellFormed) (mem : p ∈ tree.blocks)
include known linking formed mem

/-- The pool totals of a linked block are those of its chain. -/
theorem Known.pools (isLinked : tree.linked p = true)
    : (tree.index p).nChainSproutValue
        = some (Int64.ofInt (Chain.sproutPool (source.chain tree p)))
      ∧ (tree.index p).nChainSaplingValue
        = some (Int64.ofInt (Chain.saplingPool (source.chain tree p))) := by
  induction p using formed.graded.induction with
  | step p ih =>
    obtain ⟨-, ⟨sproutBefore, value, sproutKnown, change, sprout⟩,
      ⟨saplingBefore, saplingKnown, sapling⟩⟩ := linking.totals p mem isLinked
    obtain ⟨-, sproutStored, saplingStored⟩ := known.stored p mem (linking.data p mem isLinked)
    rw [sproutStored, Option.some_inj] at change
    rw [sprout, sapling, ← change, saplingStored, Chain.sproutValue_eq, Chain.saplingValue_eq]
    cases child : (tree.index p).pprev with
    | none =>
      rw [totalBefore_root child, Option.some_inj] at sproutKnown saplingKnown
      subst sproutKnown saplingKnown
      rw [Source.chain, formed.path_root child]
      simp [Chain.sproutPool, Chain.saplingPool]
    | some q =>
      have parent := parentLinked_iff.mp (linking.parent p mem isLinked) q child
      obtain ⟨sproutParent, saplingParent⟩ := ih q child (formed.closed p q mem child) parent
      rw [totalBefore_child child] at sproutKnown saplingKnown
      rw [sproutParent, Option.some_inj] at sproutKnown
      rw [saplingParent, Option.some_inj] at saplingKnown
      subst sproutKnown saplingKnown
      simp [Source.chain, formed.path_child child, Chain.sproutPool, Chain.saplingPool,
        Int64.add_comm]

/-- The transactions that a linked block counts are those of the blocks of its chain. -/
theorem Known.nTx_path (isLinked : tree.linked p = true)
    : (tree.path p).map (fun q => (tree.index q).nTx.toNat)
      = (source.chain tree p).map fun block => (ofNat block.vtx.length).toNat := by
  rw [Source.chain, map_map]
  apply map_congr_left
  intro q ancestor
  have data := (linking.linked_iff formed mem).mp isLinked q ancestor
  rw [(known.stored q (formed.path_mem mem ancestor) data).1]
  rfl

theorem Known.linkData_eq (countable : tree.Countable)
    : (tree.index p).linkData = source.linkData arrivals (tree.index p).hash
        ((tree.path p).map fun q => (tree.index q).hash) := by
  have nTx : (tree.index p).nTx = if .block (tree.index p).hash ∈ arrivals
      then ofNat (source.block (tree.index p).hash).vtx.length else 0 := by
    split
    next arrived => exact (known.stored p mem ((known.data p mem).mpr arrived)).1
    next missing =>
      exact known.absent p mem (Bool.eq_false_iff.mpr (mt (known.data p mem).mp missing))
  -- A chain has data exactly if all of its hashes have arrived.
  have arrived : tree.linked p = true
      ↔ ∀ hash ∈ (tree.path p).map fun q => (tree.index q).hash, .block hash ∈ arrivals := by
    rw [linking.linked_iff formed mem, forall_mem_map]
    exact forall₂_congr fun q ancestor => known.data q (formed.path_mem mem ancestor)
  rw [CBlockIndex.linkData, Source.linkData, nTx, ← Source.chain_eq_map_hash]
  cases isLinked : tree.linked p with
  | true =>
    obtain ⟨sprout, sapling⟩ := known.pools linking formed mem isLinked
    have tx := linking.nChainTx_eq formed countable mem isLinked
    rw [known.nTx_path linking formed mem isLinked] at tx
    rw [if_pos (arrived.mp isLinked), sprout, sapling]
    simp only [← tx, UInt32.ofNat_toNat]
  | false =>
    obtain ⟨sprout, sapling⟩ := linking.blank p mem isLinked
    have zero : (tree.index p).nChainTx = 0 := by
      simpa [linked] using isLinked
    rw [if_neg (mt arrived.mpr (Bool.eq_false_iff.mp isLinked)), zero, sprout, sapling]

end

end Orders

def numberedHash (n : Nat) : Uint256 := ⟨leBytes 32 n, leBytes_length 32 n⟩

theorem numberedHash_inj {i j} (bound : i < 2 ^ 256) (otherBound : j < 2 ^ 256)
    (same : numberedHash i = numberedHash j)
    : i = j := by
  have bytes : leBytes 32 i = leBytes 32 j := congrArg Subtype.val same
  have number : ofLE (leBytes 32 i) = i := ofLE_leBytes bound
  rw [← number, bytes, ofLE_leBytes otherBound]

/-- Blocks with the hashes 1, 2, 3 and so on, each the child of the one before, with the same
number of transactions.
-/
def straightChain (txs : Nat) : Source where
  genesis := numberedHash 1
  block hash := {
    hashPrevBlock := numberedHash (ofLE hash.toList - 1)
    vtx := List.replicate txs { hash := .null }
  }
  root := by
    have differ : numberedHash (ofLE (numberedHash 1).toList - 1) ≠ numberedHash 1 := by
      decide
    exact differ

/-- At every moment a block is linked exactly when it and its ancestors have data. It then
counts the transactions of its chain and holds the pool values of its chain, and all of this
is the same for every run with the same arrivals, in any order.
-/
theorem Arrives.linked_exactly_received (run : Arrives checkpoint source arrivals tree)
    (bounded : source.Bounded tree)
    : (∀ p ∈ tree.blocks, ((tree.index p).nChainTx ≠ 0 ↔ ∀ q ∈ tree.path p, tree.hasData q = true)
        ∧ ((tree.index p).nChainTx ≠ 0
          → (tree.index p).nChainTx.toNat
              = ((tree.path p).map fun q => (tree.index q).nTx.toNat).sum
            ∧ (tree.index p).nChainSproutValue
              = some (Int64.ofInt (Chain.sproutPool (source.chain tree p)))
            ∧ (tree.index p).nChainSaplingValue
              = some (Int64.ofInt (Chain.saplingPool (source.chain tree p)))))
      ∧ ∀ (otherArrivals : List Arrival) (other : Tree),
          Arrives checkpoint source otherArrivals other
          → (∀ arrival, arrival ∈ otherArrivals ↔ arrival ∈ arrivals)
          → ∀ hash, (other.find hash).map (fun p => (other.index p).linkData)
            = (tree.find hash).map fun p => (tree.index p).linkData := by
  obtain ⟨formed, known, -⟩ := run.settled
  have linking := run.linking bounded
  have countable := known.countable formed bounded
  have linkedIff : ∀ p, tree.linked p = true ↔ (tree.index p).nChainTx ≠ 0 :=
    fun p => decide_eq_true_iff
  constructor
  · intro p mem
    refine ⟨?_, fun nonzero => ?_⟩
    · rw [← linkedIff]
      exact linking.linked_iff formed mem
    · have isLinked := (linkedIff p).mpr nonzero
      exact ⟨linking.nChainTx_eq formed countable mem isLinked,
        known.pools linking formed mem isLinked⟩
  · intro otherArrivals other otherRun same hash
    obtain ⟨otherFormed, otherKnown, -⟩ := otherRun.settled
    have otherBounded : source.Bounded other := by
      intro q inside
      have header := (otherKnown.headers _).mp
        (Option.isSome_of_mem (otherKnown.found q inside))
      obtain ⟨p, found⟩ := Option.isSome_iff_exists.mp
        ((known.headers _).mpr ((same _).mp header))
      have paths := otherKnown.path_hash otherFormed known formed inside found
      rw [Source.chain_eq_map_hash, ← paths, ← Source.chain_eq_map_hash]
      exact bounded p (mem_blocks_of_find found)
    have otherLinking := otherRun.linking otherBounded
    have otherCountable := otherKnown.countable otherFormed otherBounded
    cases found : tree.find hash with
    | none =>
      have unknown : other.find hash = none := by
        rw [← Option.not_isSome_iff_eq_none, otherKnown.headers, same, ← known.headers, found]
        simp
      rw [unknown]
      rfl
    | some p =>
      have otherHeader : (other.find hash).isSome = true := by
        rw [otherKnown.headers, same, ← known.headers, found]
        rfl
      obtain ⟨q, otherFound⟩ := Option.isSome_iff_exists.mp otherHeader
      have mem := mem_blocks_of_find found
      obtain rfl : (tree.index p).hash = hash := formed.hashes _ _ found
      rw [otherFound, Option.map_some, Option.map_some,
        known.linkData_eq linking formed mem countable,
        otherKnown.linkData_eq otherLinking otherFormed (mem_blocks_of_find otherFound)
          otherCountable,
        known.path_hash formed otherKnown otherFormed mem otherFound,
        otherFormed.hashes _ _ otherFound]
      simp only [Source.linkData, same]

section OutOfOrder

/-- Two headers arrive, then the second block, then the first. -/
def outOfOrder : List Arrival :=
  [.block (numberedHash 1), .block (numberedHash 2), .header (numberedHash 2),
    .header (numberedHash 1)]

theorem linked_exactly_received_outOfOrder
    : ∃ tree, Arrives {} (straightChain 1) outOfOrder tree ∧ (straightChain 1).Bounded tree
      ∧ ∀ p ∈ tree.blocks,
        (tree.index p).nChainTx ≠ 0 ↔ ∀ q ∈ tree.path p, tree.hasData q = true := by
  have empty : Arrives {} (straightChain 1) [] {} := .start
  have first := empty.header (numberedHash 1) 1 (by decide) (.inr (.inl ⟨rfl, rfl⟩))
  have second := first.header (numberedHash 2) 2 (by decide) (.inr (.inr (by decide)))
  have third := second.block (numberedHash 2) 2 rfl rfl (by decide) rfl
  have fourth := third.block (numberedHash 1) 1 rfl rfl (by decide) rfl
  obtain ⟨tree, run, sums⟩ : ∃ tree, Arrives {} (straightChain 1) outOfOrder tree
      ∧ (tree.blocks.all fun p =>
        ((((straightChain 1).chain tree p).map fun block => block.vtx.length).sum < 2 ^ 32 : Bool))
        = true :=
    ⟨_, fourth, by decide +kernel⟩
  have bounded : (straightChain 1).Bounded tree := fun p mem =>
    of_decide_eq_true (all_eq_true.mp sums p mem)
  exact ⟨tree, run, bounded, fun p mem =>
    ((run.linked_exactly_received bounded).1 p mem).1⟩

end OutOfOrder

/-- The first `n` blocks of the chain have been received one after the other. -/
structure Straight (txs n : Nat) (tree : Tree) : Prop where
  run : ∃ arrivals, Arrives {} (straightChain txs) arrivals tree
  none : n = 0 → tree.mapBlockIndex = []
  last : 0 < n → tree.find (numberedHash n) = some n
  next : ∀ i, n < i → i < 2 ^ 256 → tree.find (numberedHash i) = Option.none
  data : ∀ p ∈ tree.blocks, p ≤ n ∧ tree.hasData p = true
  unlinked : tree.mapBlocksUnlinked = []
  total : 0 < n → (tree.index n).nChainTx = UInt32.ofNat (n * txs)

/-- A block that no block waits for is linked alone. -/
theorem Tree.receivedBlockTransactions_alone {block} (unlinked : tree.mapBlocksUnlinked = [])
    (ready : (tree.storeBlock block p).parentLinked p = true)
    : ∃ linked after, tree.receivedBlockTransactions {} block p = .ok after
      ∧ Tree.LinkStep (tree.storeBlock block p) p linked ∧ after = linked.eraseUnlinked p := by
  obtain ⟨linked, round⟩ : ∃ linked, (tree.storeBlock block p).linkBlock {} p = .ok linked :=
    ⟨_, rfl⟩
  have step := linkBlock_ok round
  have waiting : (tree.storeBlock block p).mapBlocksUnlinked = [] := unlinked
  have children : linked.unlinkedChildren p = [] := by
    rw [unlinkedChildren, step.unlinked, waiting]
    rfl
  refine ⟨linked, linked.eraseUnlinked p, ?_, step, rfl⟩
  rw [receivedBlockTransactions]
  simp only [ready, waiting]
  refine bind_ok.mpr ⟨linked, round, ?_⟩
  rw [children]
  rfl

theorem Straight.step {txs} (straight : Straight txs n tree) (nonempty : 0 < txs)
    (bound : n + 1 < 2 ^ 256) (counted : 0 < n → ofNat (n * txs) ≠ 0)
    : ∃ after, Straight txs (n + 1) after := by
  obtain ⟨⟨arrivals, run⟩, none, last, next, data, unlinked, total⟩ := straight
  have prev : ((straightChain txs).block (numberedHash (n + 1))).hashPrevBlock = numberedHash n :=
    congrArg (fun k => numberedHash (k - 1)) (ofLE_leBytes bound)
  have new := next (n + 1) (lt_succ_self n) bound
  have ne : ((straightChain txs).block (numberedHash (n + 1))).hashPrevBlock
      ≠ numberedHash (n + 1) := by
    rw [prev]
    intro same
    exact absurd (numberedHash_inj (by omega) bound same) (Nat.ne_of_lt (lt_succ_self n))
  have fresh : n + 1 ∉ tree.blocks := fun mem =>
    absurd (data _ mem).1 (not_succ_le_self n)
  have parent : (n = 0 ∧ tree.find (numberedHash n) = Option.none)
      ∨ (0 < n ∧ tree.find (numberedHash n) = some n) := by
    rcases Nat.eq_zero_or_pos n with rfl | pos
    · refine .inl ⟨rfl, ?_⟩
      rw [find, none rfl]
      rfl
    · exact .inr ⟨pos, last pos⟩
  have known : (tree.find (numberedHash (n + 1))).isSome = true
      ∨ (numberedHash (n + 1) = (straightChain txs).genesis ∧ tree.mapBlockIndex = [])
      ∨ (numberedHash (n + 1) ≠ (straightChain txs).genesis
        ∧ (tree.find ((straightChain txs).block (numberedHash (n + 1))).hashPrevBlock).isSome
          = true) := by
    rw [prev]
    rcases parent with ⟨rfl, -⟩ | ⟨pos, found⟩
    · exact .inr (.inl ⟨rfl, none rfl⟩)
    · refine .inr (.inr ⟨fun same => ?_, found ▸ rfl⟩)
      have first := numberedHash_inj bound (by decide) same
      omega
  have headerRun := run.header _ (n + 1) fresh known
  have added : tree.HeaderAdded _ _ (n + 1) _ := addToBlockIndex_new new ne
  generalize (tree.addToBlockIndex _ _ _).2 = withHeader at headerRun added
  generalize isBlock : (straightChain txs).block (numberedHash (n + 1)) = block at *
  have pprev : (withHeader.index (n + 1)).pprev = tree.find (numberedHash n) := by
    rw [added.pprev, prev]
  -- The parent, if there is one, is the last block so far.
  have before : (withHeader.storeBlock block (n + 1)).parentLinked (n + 1) = true
      ∧ (withHeader.storeBlock block (n + 1)).txBefore (n + 1) = ofNat (n * txs) := by
    have stored : ((withHeader.storeBlock block (n + 1)).index (n + 1)).pprev
        = tree.find (numberedHash n) :=
      (storeBlock_pprev block (n + 1)).trans pprev
    rcases parent with ⟨rfl, root⟩ | ⟨pos, found⟩
    · rw [root] at stored
      rw [parentLinked_iff, stored, txBefore_root stored, Nat.zero_mul]
      exact ⟨by simp, rfl⟩
    rw [found] at stored
    have entry : ((withHeader.storeBlock block (n + 1)).index n).nChainTx
        = ofNat (n * txs) := by
      rw [storeBlock_index_ne block (Nat.ne_of_lt (lt_succ_self n)),
        added.other n (Nat.ne_of_lt (lt_succ_self n)), total pos]
    rw [parentLinked_iff, txBefore_child stored, entry]
    refine ⟨fun q child => ?_, rfl⟩
    cases stored.symm.trans child
    rw [linked, entry]
    exact decide_eq_true (counted pos)
  obtain ⟨linked, after, received, step, rfl⟩ := receivedBlockTransactions_alone
    (added.unlinked.trans unlinked) before.1
  have same := step.sameBlocks
  have map : linked.mapBlockIndex = (numberedHash (n + 1), n + 1) :: tree.mapBlockIndex :=
    step.mapBlockIndex.trans added.mapBlockIndex
  have txs_eq : block.vtx.length = txs := by
    rw [← isBlock]
    exact length_replicate
  have hasHeader : withHeader.find (numberedHash (n + 1)) = some (n + 1) := by
    rw [find, added.mapBlockIndex, lookup_cons, beq_self_eq_true]
  have noData := added.new_not_linked.1
  refine ⟨linked.eraseUnlinked (n + 1), ⟨_, headerRun.block _ (n + 1) hasHeader noData ?_ ?_⟩,
    fun zero => absurd zero (succ_ne_zero n), fun _ => ?_, fun i above small => ?_,
    fun p mem => ?_, ?_, fun _ => ?_⟩
  · rw [isBlock, ← length_pos_iff, txs_eq]
    exact nonempty
  · rw [isBlock]
    exact received
  · change linked.mapBlockIndex.lookup _ = _
    rw [map, lookup_cons, beq_self_eq_true]
  · change linked.mapBlockIndex.lookup _ = _
    have other : numberedHash i ≠ numberedHash (n + 1) := fun equal =>
      absurd (numberedHash_inj small bound equal) (ne_of_gt above)
    rw [map, lookup_cons, beq_false_of_ne other]
    exact next i (lt_of_succ_lt above) small
  · change p ∈ linked.mapBlockIndex.map Prod.snd at mem
    change p ≤ n + 1 ∧ linked.hasData p = true
    rw [map] at mem
    rw [same.hasData]
    rcases mem_cons.mp mem with rfl | earlier
    · exact ⟨le_refl _, storeBlock_hasData_self block⟩
    · obtain ⟨below, has⟩ := data p earlier
      have other : p ≠ n + 1 := Nat.ne_of_lt (lt_succ_of_le below)
      rw [hasData, storeBlock_index_ne block other, added.other p other]
      exact ⟨le_succ_of_le below, has⟩
  · rw [Tree.eraseUnlinked, step.unlinked, Tree.storeBlock, Tree.modify, added.unlinked, unlinked]
    rfl
  obtain ⟨sprout, entry, -⟩ := step.entry
  have nTx : ((withHeader.storeBlock block (n + 1)).index (n + 1)).nTx = ofNat txs := by
    rw [storeBlock, index_modify_self, CBlockIndex.received, txs_eq]
  change (linked.index (n + 1)).nChainTx = _
  rw [entry, succ_mul, ofNat_add, ← before.2, ← nTx, ← withTotals_nChainTx]
  rfl

theorem exists_straight (txs n : Nat) (nonempty : 0 < txs) (bound : n * txs ≤ 2 ^ 32)
    : ∃ tree, Straight txs n tree := by
  induction n with
  | zero =>
    exact ⟨{}, ⟨[], .start⟩, fun _ => rfl, nofun, fun _ _ _ => rfl, nofun, rfl, nofun⟩
  | succ n ih =>
    have below : n * txs < 2 ^ 32 := by
      rw [succ_mul] at bound
      omega
    obtain ⟨tree, straight⟩ := ih (le_of_lt below)
    have small : n ≤ n * txs := Nat.le_mul_of_pos_right n nonempty
    refine straight.step nonempty (by omega) fun pos zero => ?_
    have number := congrArg toNat zero
    rw [toNat_ofNat_of_lt' below] at number
    exact absurd number (mul_pos pos nonempty).ne'

/-- A chain of 2 ^ 20 blocks, received in order, with 2 ^ 12 transactions each: all of it has
data, and `nChainTx` of its last block has wrapped around to zero.
-/
theorem nChainTx_wraps
    : ∃ arrivals tree, Arrives {} (straightChain (2 ^ 12)) arrivals tree
      ∧ ∃ p ∈ tree.blocks, (∀ q ∈ tree.path p, tree.hasData q = true)
        ∧ (tree.index p).nChainTx = 0 := by
  obtain ⟨tree, straight⟩ := exists_straight (2 ^ 12) (2 ^ 20) (by decide) (by decide)
  obtain ⟨arrivals, run⟩ := straight.run
  have mem := mem_blocks_of_find (straight.last (by decide))
  refine ⟨arrivals, tree, run, 2 ^ 20, mem, ?_, ?_⟩
  · intro q ancestor
    exact (straight.data q (run.settled.formed.path_mem mem ancestor)).2
  · rw [straight.total (by decide)]
    rfl

end Resistance.BlockTree

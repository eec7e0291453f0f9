import Resistance.BlockTree.Headers

/-! Headers and blocks arrive in any order in which parents' headers come first. At every
moment a block is linked exactly when all of its chain has data, with the totals of the chain,
and what is stored in the end does not depend on the order.
-/

namespace Resistance.BlockTree

open List Primitives Lib.Forest Lib.Checks BlockTree.Tree

/-- A tree of blocks, by their hashes. -/
structure Source where
  genesis : Uint256
  block : Uint256 → CBlock
  root : (block genesis).hashPrevBlock ≠ genesis

inductive Arrival where
  | header (hash : Uint256)
  | block (hash : Uint256)
  deriving DecidableEq

/-- What activating a chain may do between two arrivals: it changes the active chain, the
candidates, and the validity of blocks for the better.
-/
structure Tree.Activity (tree after : Tree) : Prop extends tree.SameLinks after where
  failed : ∀ p, (after.index p).nStatus.failed = (tree.index p).nStatus.failed
  level : ∀ p, (tree.index p).nStatus.valid.level ≤ (after.index p).nStatus.valid.level

variable {checkpoint : PoolCheckpoint} {source : Source} {arrivals : List Arrival}
  {tree after : Tree}

/-- The arrivals so far, the last one first, and the tree that they have built. A block is
received once, as `AcceptBlock` sees that it has the data already, and has transactions, as
`CheckBlock` sees to.
-/
inductive Arrives (checkpoint : PoolCheckpoint) (source : Source) : List Arrival → Tree → Prop
  | start : Arrives checkpoint source [] {}
  | header {arrivals : List Arrival} {tree : Tree} (hash : Uint256) (address : Pointer)
      (before : Arrives checkpoint source arrivals tree) (fresh : address ∉ tree.blocks)
      (parent : (tree.find hash).isSome = true
        ∨ (hash = source.genesis ∧ tree.mapBlockIndex = [])
        ∨ (hash ≠ source.genesis
          ∧ (tree.find (source.block hash).hashPrevBlock).isSome = true))
      : Arrives checkpoint source (.header hash :: arrivals)
          (tree.addToBlockIndex hash (source.block hash).toCBlockHeader address).2
  | block {arrivals : List Arrival} {tree after : Tree} (hash : Uint256) (pindex : Pointer)
      (before : Arrives checkpoint source arrivals tree) (known : tree.find hash = some pindex)
      (noData : tree.hasData pindex = false) (nonempty : (source.block hash).vtx ≠ [])
      (run : tree.receivedBlockTransactions checkpoint (source.block hash) pindex = .ok after)
      : Arrives checkpoint source (.block hash :: arrivals) after
  | activity {arrivals : List Arrival} {tree after : Tree}
      (before : Arrives checkpoint source arrivals tree) (activity : tree.Activity after)
      : Arrives checkpoint source arrivals after

/-- The tree holds what has arrived. -/
structure Known (source : Source) (arrivals : List Arrival) (tree : Tree) : Prop where
  headers : ∀ hash, (tree.find hash).isSome = true ↔ .header hash ∈ arrivals
  found : ∀ p ∈ tree.blocks, tree.find (tree.index p).hash = some p
  root : ∀ p ∈ tree.blocks, (tree.index p).pprev = none ↔ (tree.index p).hash = source.genesis
  parent : ∀ p ∈ tree.blocks, ∀ q, (tree.index p).pprev = some q
    → (tree.index q).hash = (source.block (tree.index p).hash).hashPrevBlock
  data : ∀ p ∈ tree.blocks, tree.hasData p = true ↔ .block (tree.index p).hash ∈ arrivals
  headerFirst : ∀ hash, .block hash ∈ arrivals → .header hash ∈ arrivals
  nonempty : ∀ hash, .block hash ∈ arrivals → (source.block hash).vtx ≠ []
  stored : ∀ p ∈ tree.blocks, tree.hasData p = true
    → (tree.index p).nTx = UInt32.ofNat (source.block (tree.index p).hash).vtx.length
      ∧ (tree.index p).nSproutValue
        = some (Chain.sproutValue (source.block (tree.index p).hash))
      ∧ (tree.index p).nSaplingValue = Chain.saplingValue (source.block (tree.index p).hash)
  absent : ∀ p ∈ tree.blocks, tree.hasData p = false → (tree.index p).nTx = 0
  valid : ∀ p ∈ tree.blocks, (tree.index p).nStatus.isValid .tree = true

/-- The blocks of a chain, from the last one down to the genesis block. -/
def Source.chain (source : Source) (tree : Tree) (p : Pointer) : List CBlock :=
  (tree.path p).map fun q => source.block (tree.index q).hash

/-- No chain has more transactions than 32 bits can count. -/
def Source.Bounded (source : Source) (tree : Tree) : Prop :=
  ∀ p ∈ tree.blocks, ((source.chain tree p).map fun block => block.vtx.length).sum < 2 ^ 32

theorem Known.countable (known : Known source arrivals tree) (formed : tree.WellFormed)
    (bounded : source.Bounded tree)
    : tree.Countable := by
  have length_lt : ∀ p ∈ tree.blocks,
      (source.block (tree.index p).hash).vtx.length < 2 ^ 32 := by
    intro p mem
    refine lt_of_le_of_lt ?_ (bounded p mem)
    apply single_le_sum (fun _ _ => Nat.zero_le _)
    exact mem_map.mpr ⟨_, mem_map.mpr ⟨p, formed.graded.self_mem p, rfl⟩, rfl⟩
  have count : ∀ p ∈ tree.blocks, (tree.index p).nTx.toNat
      ≤ (source.block (tree.index p).hash).vtx.length := by
    intro p mem
    cases data : tree.hasData p with
    | false =>
      rw [known.absent p mem data]
      exact Nat.zero_le _
    | true =>
      rw [(known.stored p mem data).1, UInt32.toNat_ofNat_of_lt' (length_lt p mem)]
  constructor
  · intro p mem data zero
    have length := congrArg UInt32.toNat (known.stored p mem data).1
    rw [zero, UInt32.toNat_ofNat_of_lt' (length_lt p mem)] at length
    exact known.nonempty _ ((known.data p mem).mp data) (length_eq_zero_iff.mp length.symm)
  · intro p mem data
    exact ⟨_, (known.stored p mem data).2.1⟩
  intro p mem
  refine lt_of_le_of_lt ?_ (bounded p mem)
  rw [Source.chain, map_map]
  apply sum_le_sum
  intro q ancestor
  exact count q (formed.path_mem mem ancestor)

/-- What holds along every run, however many transactions there are. -/
structure Settled (source : Source) (arrivals : List Arrival) (tree : Tree) : Prop where
  formed : tree.WellFormed
  known : Known source arrivals tree
  listed : ∀ q p, (q, p) ∈ tree.mapBlocksUnlinked → p ∈ tree.blocks

theorem settled_start : Settled source [] {} where
  formed := wellFormed_start
  known := {
    headers := fun _ => iff_of_false nofun not_mem_nil
    found := nofun
    root := nofun
    parent := nofun
    data := nofun
    headerFirst := nofun
    nonempty := nofun
    stored := nofun
    absent := nofun
    valid := nofun
  }
  listed := fun _ _ listed => nomatch listed

variable {address pindex : Pointer}

section

variable (known : Known source arrivals tree) (formed : tree.WellFormed)
include known formed

theorem Known.added {hash} (fresh : address ∉ tree.blocks) (new : tree.find hash = none)
    (place : tree.find (source.block hash).hashPrevBlock = none ↔ hash = source.genesis)
    (added : tree.HeaderAdded hash (source.block hash).toCBlockHeader address after)
    : Known source (.header hash :: arrivals) after := by
  obtain ⟨newData, -⟩ := added.new_not_linked
  have newHash : (after.index address).hash = hash := by
    rw [added.entry]
    rfl
  have find : ∀ other, after.find other
      = if other = hash then some address else tree.find other := by
    intro other
    rw [find, added.mapBlockIndex, lookup_cons]
    by_cases same : other = hash
    · rw [if_pos same, same, beq_self_eq_true]
    · rw [if_neg same, beq_false_of_ne same]
      rfl
  have oldHash : ∀ p ∈ tree.blocks, (tree.index p).hash ≠ hash := by
    intro p mem same
    have found := known.found p mem
    rw [same, new] at found
    cases found
  have notArrived : .block hash ∉ arrivals := by
    intro arrived
    have header := (known.headers hash).mpr (known.headerFirst hash arrived)
    rw [new] at header
    cases header
  have later : ∀ other, .block other ∈ .header hash :: arrivals ↔ .block other ∈ arrivals := by
    simp
  constructor
  · intro other
    rw [find]
    by_cases same : other = hash
    · simp [same]
    · simp [same, known.headers]
  · intro p mem
    rcases added.block_cases fresh mem with rfl | ⟨old, same⟩
    · rw [find, newHash, if_pos rfl]
    · rw [find, same, if_neg (oldHash p old)]
      exact known.found p old
  · intro p mem
    rcases added.block_cases fresh mem with rfl | ⟨old, same⟩
    · rw [added.pprev, newHash]
      exact place
    · rw [same]
      exact known.root p old
  · intro p mem q child
    rcases added.block_cases fresh mem with rfl | ⟨old, same⟩
    · rw [added.pprev] at child
      rw [added.index_of_mem fresh (mem_blocks_of_find child), newHash]
      exact formed.hashes _ _ child
    · rw [same] at child ⊢
      rw [added.index_of_mem fresh (formed.closed p q old child)]
      exact known.parent p old q child
  · intro p mem
    rcases added.block_cases fresh mem with rfl | ⟨old, same⟩
    · rw [newData, newHash, later]
      exact iff_of_false Bool.false_ne_true notArrived
    · rw [hasData, same, later]
      exact known.data p old
  · intro other arrived
    exact mem_cons_of_mem _ (known.headerFirst other ((later other).mp arrived))
  · intro other arrived
    exact known.nonempty other ((later other).mp arrived)
  · intro p mem data
    obtain ⟨old, same, data⟩ := added.old_of_data fresh mem data
    rw [same]
    exact known.stored p old data
  · intro p mem noData
    rcases added.block_cases fresh mem with rfl | ⟨old, same⟩
    · rw [added.entry]
      rfl
    · rw [hasData, same] at noData
      rw [same]
      exact known.absent p old noData
  · intro p mem
    rcases added.block_cases fresh mem with rfl | ⟨old, same⟩
    · rw [added.entry]
      rfl
    · rw [same]
      exact known.valid p old

/-- Storing a block records its data, and nothing of the other blocks. -/
theorem Known.storeBlock {hash} (found : tree.find hash = some pindex)
    (nonempty : (source.block hash).vtx ≠ [])
    : Known source (.block hash :: arrivals) (tree.storeBlock (source.block hash) pindex) := by
  have hashOf : (tree.index pindex).hash = hash := formed.hashes hash pindex found
  have hashes : ∀ p, ((tree.storeBlock (source.block hash) pindex).index p).hash
      = (tree.index p).hash :=
    storeBlock_field _ (·.hash)
  have isBlock : ∀ p ∈ tree.blocks, (tree.index p).hash = hash ↔ p = pindex := by
    intro p inside
    constructor
    · intro same
      have foundSame := known.found p inside
      rw [same, found] at foundSame
      exact (Option.some_inj.mp foundSame).symm
    · rintro rfl
      exact hashOf
  constructor
  · intro other
    rw [mem_cons, or_iff_right (by simp)]
    exact known.headers other
  · intro p inside
    rw [hashes]
    exact known.found p inside
  · intro p inside
    rw [hashes, storeBlock_pprev]
    exact known.root p inside
  · intro p inside q
    rw [hashes, hashes, storeBlock_pprev]
    exact known.parent p inside q
  · intro p inside
    rw [hashes, mem_cons, Arrival.block.injEq, isBlock p inside]
    by_cases same : p = pindex
    · subst same
      simp [storeBlock_hasData_self]
    · rw [hasData, storeBlock_index_ne _ same, or_iff_right same]
      exact known.data p inside
  · intro other arrived
    rcases mem_cons.mp arrived with same | arrived
    · cases same
      refine mem_cons_of_mem _ ((known.headers hash).mp ?_)
      rw [found]
      rfl
    · exact mem_cons_of_mem _ (known.headerFirst other arrived)
  · intro other arrived
    rcases mem_cons.mp arrived with same | arrived
    · cases same
      exact nonempty
    · exact known.nonempty other arrived
  · intro p inside data
    rw [hashes]
    by_cases same : p = pindex
    · subst same
      rw [storeBlock, index_modify_self, hashOf]
      exact ⟨rfl, rfl, rfl⟩
    · rw [hasData, storeBlock_index_ne _ same] at data
      rw [storeBlock_index_ne _ same]
      exact known.stored p inside data
  · intro p inside noData
    by_cases same : p = pindex
    · subst same
      rw [storeBlock_hasData_self] at noData
      cases noData
    · rw [hasData, storeBlock_index_ne _ same] at noData
      rw [storeBlock_index_ne _ same]
      exact known.absent p inside noData
  · intro p inside
    by_cases same : p = pindex
    · subst same
      rw [storeBlock, index_modify_self]
      exact BlockStatus.isValid_raiseValidity .transactions (known.valid p inside)
    · rw [storeBlock_index_ne _ same]
      exact known.valid p inside

end

/-- The trees hold the same headers and the same data. -/
structure Tree.SameData (tree after : Tree) : Prop where
  mapBlockIndex : after.mapBlockIndex = tree.mapBlockIndex
  hash : ∀ p, (after.index p).hash = (tree.index p).hash
  pprev : ∀ p, (after.index p).pprev = (tree.index p).pprev
  path : ∀ p, after.path p = tree.path p
  hasData : ∀ p, after.hasData p = tree.hasData p
  nTx : ∀ p, (after.index p).nTx = (tree.index p).nTx
  nSproutValue : ∀ p, (after.index p).nSproutValue = (tree.index p).nSproutValue
  nSaplingValue : ∀ p, (after.index p).nSaplingValue = (tree.index p).nSaplingValue
  valid : ∀ p, (tree.index p).nStatus.isValid .tree = true
    → (after.index p).nStatus.isValid .tree = true

theorem Tree.SameBlocks.sameData (same : tree.SameBlocks after) : tree.SameData after where
  mapBlockIndex := same.mapBlockIndex
  hash := same.field (·.hash)
  pprev := same.field (·.pprev)
  path := same.path
  hasData := same.hasData
  nTx := same.field (·.nTx)
  nSproutValue := same.field (·.nSproutValue)
  nSaplingValue := same.field (·.nSaplingValue)
  valid := fun p valid => (same.field (·.nStatus) p).symm ▸ valid

theorem Tree.Activity.sameData (activity : tree.Activity after) : tree.SameData after where
  mapBlockIndex := activity.mapBlockIndex
  hash := activity.field (·.hash)
  pprev := activity.field (·.pprev)
  path := activity.path
  hasData := activity.haveData
  nTx := activity.field (·.nTx)
  nSproutValue := activity.field (·.nSproutValue)
  nSaplingValue := activity.field (·.nSaplingValue)
  valid := by
    intro p valid
    rw [BlockStatus.isValid, Bool.and_eq_true, decide_eq_true_eq] at valid ⊢
    rw [activity.failed]
    exact ⟨valid.1, valid.2.trans (activity.level p)⟩

theorem Known.sameData (known : Known source arrivals tree) (same : tree.SameData after)
    : Known source arrivals after := by
  have find : after.find = tree.find := by
    funext hash
    rw [find, same.mapBlockIndex, find]
  have blocks : after.blocks = tree.blocks := by
    rw [blocks, same.mapBlockIndex, blocks]
  refine ⟨?_, ?_, ?_, ?_, ?_, known.headerFirst, known.nonempty, ?_, ?_,
    blocks ▸ fun p mem => same.valid p (known.valid p mem)⟩
  all_goals
    simp only [find, blocks, same.hash, same.pprev, same.hasData, same.nTx, same.nSproutValue,
      same.nSaplingValue]
  exacts [known.headers, known.found, known.root, known.parent, known.data, known.stored,
    known.absent]

theorem Known.again {arrival} (known : Known source arrivals tree) (arrived : arrival ∈ arrivals)
    : Known source (arrival :: arrivals) tree := by
  have same : ∀ other, other ∈ arrival :: arrivals ↔ other ∈ arrivals := by
    intro other
    rw [mem_cons, or_iff_right_of_imp]
    rintro rfl
    exact arrived
  refine ⟨?_, known.found, known.root, known.parent, ?_, ?_, ?_, known.stored, known.absent,
    known.valid⟩
  all_goals
    simp only [same]
  · exact known.headers
  · exact known.data
  · exact known.headerFirst
  · exact known.nonempty

theorem Tree.SameData.chain (same : tree.SameData after) (p : Pointer)
    : source.chain after p = source.chain tree p := by
  rw [Source.chain, same.path, Source.chain]
  simp only [same.hash]

/-- A later tree has the earlier chains. -/
theorem Source.Bounded.earlier (bounded : source.Bounded after)
    (blocks : ∀ p ∈ tree.blocks, p ∈ after.blocks)
    (chains : ∀ p ∈ tree.blocks, source.chain after p = source.chain tree p)
    : source.Bounded tree := by
  intro p mem
  rw [← chains p mem]
  exact bounded p (blocks p mem)

section

variable (settled : Settled source arrivals tree)
include settled

/-- What adding a header does to a tree in which its parent is known. -/
theorem Settled.header {hash} (fresh : address ∉ tree.blocks)
    (parent : (tree.find hash).isSome = true
      ∨ (hash = source.genesis ∧ tree.mapBlockIndex = [])
      ∨ (hash ≠ source.genesis
        ∧ (tree.find (source.block hash).hashPrevBlock).isSome = true))
    (made : (tree.addToBlockIndex hash (source.block hash).toCBlockHeader address).2 = after)
    : Settled source (.header hash :: arrivals) after
      ∧ (source.Bounded after → source.Bounded tree)
      ∧ (tree.Linking [] → after.Linking []) := by
  obtain ⟨formed, known, listed⟩ := settled
  cases found : tree.find hash with
  | some p =>
    rw [addToBlockIndex_known found] at made
    subst made
    have arrived : .header hash ∈ arrivals := by
      rw [← known.headers, found]
      rfl
    exact ⟨⟨formed, known.again arrived, listed⟩, id, id⟩
  | none =>
    have place : tree.find (source.block hash).hashPrevBlock = none
        ↔ hash = source.genesis := by
      rcases parent with known | ⟨isGenesis, empty⟩ | ⟨notGenesis, parentKnown⟩
      · rw [found] at known
        cases known
      · refine iff_of_true ?_ isGenesis
        rw [find, empty]
        rfl
      · refine iff_of_false ?_ notGenesis
        intro unknown
        rw [unknown] at parentKnown
        cases parentKnown
    have ne : (source.block hash).hashPrevBlock ≠ hash := by
      intro self
      have isGenesis := place.mp (self.symm ▸ found)
      exact source.root (isGenesis ▸ self)
    have added : tree.HeaderAdded hash (source.block hash).toCBlockHeader address after :=
      made ▸ addToBlockIndex_new found ne
    have inside : ∀ p ∈ tree.blocks, p ∈ after.blocks := by
      intro p mem
      rw [added.blocks]
      exact mem_cons_of_mem _ mem
    refine ⟨⟨added.wellFormed formed fresh, known.added formed fresh found place added, ?_⟩,
      fun bounded => bounded.earlier inside ?_, added.linking formed fresh⟩
    · intro q p pair
      rw [added.unlinked] at pair
      exact inside p (listed q p pair)
    intro p mem
    rw [Source.chain, added.path_of_mem formed fresh mem]
    apply map_congr_left
    intro q ancestor
    rw [added.index_of_mem fresh (formed.path_mem mem ancestor)]

/-- What receiving a block does to a tree in which its header is known. -/
theorem Settled.block {hash} (found : tree.find hash = some pindex)
    (noData : tree.hasData pindex = false) (nonempty : (source.block hash).vtx ≠ [])
    (run : tree.receivedBlockTransactions checkpoint (source.block hash) pindex = .ok after)
    : Settled source (.block hash :: arrivals) after
      ∧ (source.Bounded after → source.Bounded tree ∧ (tree.Linking [] → after.Linking [])) := by
  obtain ⟨formed, known, listed⟩ := settled
  have mem := mem_blocks_of_find found
  have stored := known.storeBlock formed found nonempty
  have shape := receivedBlockTransactions_shape (source.block hash) formed mem listed run
  have same := shape.same.sameData
  have chains : ∀ p, source.chain (tree.storeBlock (source.block hash) pindex) p
      = source.chain tree p := by
    intro p
    rw [Source.chain, storeBlock_path, Source.chain]
    simp only [storeBlock_field (source.block hash) (·.hash)]
  have inside : ∀ p ∈ tree.blocks, p ∈ after.blocks := by
    intro p mem
    rw [shape.same.blocks]
    exact mem
  refine ⟨⟨shape.formed, stored.sameData same, shape.listed⟩,
    fun bounded => ⟨?_, fun linking => ?_⟩⟩
  · exact bounded.earlier inside fun p _ => (same.chain p).trans (chains p)
  have formedStored := storeBlock_wellFormed (source.block hash) formed mem
  have countable := stored.countable formedStored
    (bounded.earlier inside fun p _ => same.chain p)
  have round := receivedBlockTransactions_round (source.block hash) linking formed
    countable mem noData
    (fun q child _ => known.valid q (formed.closed pindex q mem child)) run
  exact round.linking

theorem Settled.activity (activity : tree.Activity after)
    : Settled source arrivals after where
  formed := activity.wellFormed settled.formed
  known := settled.known.sameData activity.sameData
  listed := by
    rw [activity.unlinked, activity.blocks]
    exact settled.listed

end

theorem Arrives.settled (run : Arrives checkpoint source arrivals tree)
    : Settled source arrivals tree := by
  induction run with
  | start => exact settled_start
  | header hash address before fresh parent ih => exact (ih.header fresh parent rfl).1
  | block hash pindex before found noData nonempty run ih =>
    exact (ih.block found noData nonempty run).1
  | activity before activity ih => exact ih.activity activity

theorem Arrives.linking (run : Arrives checkpoint source arrivals tree)
    (bounded : source.Bounded tree)
    : tree.Linking [] := by
  -- Chains only grow, so that the bound on the last tree is one on all trees before it.
  induction run with
  | start => exact linking_start
  | header hash address before fresh parent ih =>
    obtain ⟨-, earlier, keeps⟩ := before.settled.header fresh parent rfl
    exact keeps (ih (earlier bounded))
  | block hash pindex before found noData nonempty run ih =>
    obtain ⟨-, rest⟩ := before.settled.block found noData nonempty run
    obtain ⟨earlier, keeps⟩ := rest bounded
    exact keeps (ih earlier)
  | activity before activity ih =>
    refine activity.linking (ih (bounded.earlier ?_ fun p _ => activity.sameData.chain p))
    rw [activity.blocks]
    exact fun _ mem => mem

end Resistance.BlockTree

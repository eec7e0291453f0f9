import Resistance.BlockTree.Linking

/-! `CheckBlockIndex` of `main.cpp`, which walks the whole block tree and asserts what holds of
every block, and what a passed check says about a block and its chain.
-/

namespace Resistance.BlockTree

open List Primitives Lib.Forest Lib.Checks

/-- The oldest ancestors, if any, of the block being visited that have certain properties. -/
structure Firsts where
  invalid : Option Pointer := none
  missing : Option Pointer := none
  neverProcessed : Option Pointer := none
  notTreeValid : Option Pointer := none
  notTransactionsValid : Option Pointer := none
  notChainValid : Option Pointer := none
  notScriptsValid : Option Pointer := none

/-- A block becomes the first with a property if no ancestor has it. -/
def firstWith (first : Option Pointer) (pindex : Pointer) (property : Bool) : Option Pointer :=
  if first = none && property then some pindex else first

namespace Tree

/-- `chainActive.Genesis()`. -/
def genesis (tree : Tree) : Option Pointer := tree.chainActive.head?.join

/-- `chainActive.Contains(pindex)`. -/
def contains (tree : Tree) (pindex : Pointer) : Bool :=
  tree.chainActive[(tree.index pindex).nHeight]?.join = some pindex

def visit (tree : Tree) (pindex : Pointer) (firsts : Firsts) : Firsts :=
  let entry := tree.index pindex
  let below (level : BlockValidity) : Bool :=
    entry.pprev ≠ none && entry.nStatus.valid.level < level.level
  {
    invalid := firstWith firsts.invalid pindex entry.nStatus.failedValid
    missing := firstWith firsts.missing pindex !entry.nStatus.haveData
    neverProcessed := firstWith firsts.neverProcessed pindex (entry.nTx = 0)
    notTreeValid := firstWith firsts.notTreeValid pindex (below .tree)
    notTransactionsValid := firstWith firsts.notTransactionsValid pindex (below .transactions)
    notChainValid := firstWith firsts.notChainValid pindex (below .chain)
    notScriptsValid := firstWith firsts.notScriptsValid pindex (below .scripts)
  }

/-- Whether the block is in `mapBlocksUnlinked` under its predecessor. -/
def foundInUnlinked (tree : Tree) (pindex : Pointer) : Bool :=
  tree.mapBlocksUnlinked.any fun pair =>
    (tree.index pindex).pprev = some pair.1 && pair.2 = pindex

/-- The actual consistency checks of `CheckBlockIndex`. -/
def checkNode (tree : Tree) (hashGenesisBlock : Uint256) (nHeight : Nat) (firsts : Firsts)
    (pindex : Pointer)
    : Except String Unit := do
  let entry := tree.index pindex
  let nStatus := entry.nStatus
  let candidate : Bool := pindex ∈ tree.setBlockIndexCandidates
  let found := tree.foundInUnlinked pindex
  -- Genesis block checks.
  assertThat (entry.pprev = none → entry.hash = hashGenesisBlock)
    "pindex->GetBlockHash() == consensusParams.hashGenesisBlock"
  assertThat (entry.pprev = none → tree.genesis = some pindex) "pindex == chainActive.Genesis()"
  -- nSequenceId can't be set for blocks that aren't linked
  assertThat (entry.nChainTx = 0 → entry.nSequenceId = 0) "pindex->nSequenceId == 0"
  -- HAVE_DATA is only equivalent to nTx > 0 (or VALID_TRANSACTIONS) if no pruning has occurred.
  assertThat (!tree.fHavePruned → ((!nStatus.haveData) ↔ entry.nTx = 0))
    "!(pindex->nStatus & BLOCK_HAVE_DATA) == (pindex->nTx == 0)"
  assertThat (!tree.fHavePruned → firsts.missing = firsts.neverProcessed)
    "pindexFirstMissing == pindexFirstNeverProcessed"
  assertThat (tree.fHavePruned → nStatus.haveData → entry.nTx ≠ 0) "pindex->nTx > 0"
  assertThat (nStatus.haveUndo → nStatus.haveData) "pindex->nStatus & BLOCK_HAVE_DATA"
  assertThat (BlockValidity.transactions.level ≤ nStatus.valid.level ↔ entry.nTx ≠ 0)
    "((pindex->nStatus & BLOCK_VALID_MASK) >= BLOCK_VALID_TRANSACTIONS) == (pindex->nTx > 0)"
  -- nChainTx != 0 is used to signal that all parent blocks have been processed.
  assertThat (firsts.neverProcessed ≠ none ↔ entry.nChainTx = 0)
    "(pindexFirstNeverProcessed != NULL) == (pindex->nChainTx == 0)"
  assertThat (firsts.notTransactionsValid ≠ none ↔ entry.nChainTx = 0)
    "(pindexFirstNotTransactionsValid != NULL) == (pindex->nChainTx == 0)"
  assertThat (entry.nHeight = nHeight) "pindex->nHeight == nHeight"
  assertThat ((tree.prev pindex).all (fun pprev => pprev.nChainWork ≤ entry.nChainWork))
    "pindex->pprev == NULL || pindex->nChainWork >= pindex->pprev->nChainWork"
  assertThat (nHeight < 2 ∨ entry.pskip.any (fun pskip => (tree.index pskip).nHeight < nHeight))
    "nHeight < 2 || (pindex->pskip && (pindex->pskip->nHeight < nHeight))"
  -- All mapBlockIndex entries must at least be TREE valid
  assertThat (firsts.notTreeValid = none) "pindexFirstNotTreeValid == NULL"
  assertThat (BlockValidity.tree.level ≤ nStatus.valid.level → firsts.notTreeValid = none)
    "pindexFirstNotTreeValid == NULL"
  assertThat (BlockValidity.chain.level ≤ nStatus.valid.level → firsts.notChainValid = none)
    "pindexFirstNotChainValid == NULL"
  assertThat (BlockValidity.scripts.level ≤ nStatus.valid.level → firsts.notScriptsValid = none)
    "pindexFirstNotScriptsValid == NULL"
  -- The failed mask cannot be set for blocks without invalid parents.
  assertThat (firsts.invalid = none → nStatus.failed = false)
    "(pindex->nStatus & BLOCK_FAILED_MASK) == 0"
  if tree.notWorseThanTip pindex ∧ firsts.neverProcessed = none then
    -- A block as good as the tip, valid and with all data, must be a candidate, and so must the
    -- tip even if some data has been pruned.
    assertThat (firsts.invalid = none → (firsts.missing = none ∨ tree.tip = some pindex)
      → candidate) "setBlockIndexCandidates.count(pindex)"
  else
    assertThat (candidate = false) "setBlockIndexCandidates.count(pindex) == 0"
  assertThat (entry.pprev ≠ none → nStatus.haveData → firsts.neverProcessed ≠ none
    → firsts.invalid = none → found) "foundInUnlinked"
  -- Can't be in mapBlocksUnlinked if we don't HAVE_DATA
  assertThat (nStatus.haveData = false → found = false) "!foundInUnlinked"
  -- We aren't missing data for any parent -- cannot be in mapBlocksUnlinked.
  assertThat (firsts.missing = none → found = false) "!foundInUnlinked"
  if entry.pprev ≠ none ∧ nStatus.haveData ∧ firsts.neverProcessed = none
      ∧ firsts.missing ≠ none then
    -- We are currently missing data for some parent that has been received.
    assertThat tree.fHavePruned "fHavePruned"
    assertThat (tree.notWorseThanTip pindex → candidate = false → firsts.invalid = none → found)
      "foundInUnlinked"

/-- `forward.equal_range(pindex)`. -/
def forward (tree : Tree) (pindex : Option Pointer) : List Pointer :=
  tree.blocks.filter fun p => (tree.index p).pprev = pindex

/-- The depth-first search below a block, which returns the number of nodes visited. The depth
of the search is at most `fuel`.
-/
def checkSubtree (tree : Tree) (hashGenesisBlock : Uint256)
    : Nat → Nat → Firsts → Pointer → Except String Nat
  | 0, _, _, _ => .error "nNodes == forward.size()"
  | fuel + 1, nHeight, firsts, pindex => do
    let firsts := tree.visit pindex firsts
    tree.checkNode hashGenesisBlock nHeight firsts pindex
    (tree.forward (some pindex)).foldlM
      (fun nNodes child => do
        let below ← checkSubtree tree hashGenesisBlock fuel (nHeight + 1) firsts child
        return nNodes + below)
      1

/-- `CheckBlockIndex`, when `fCheckBlockIndex` is set. -/
def checkBlockIndex (tree : Tree) (hashGenesisBlock : Uint256) : Except String Unit :=
  if tree.chainActive = [] then
    -- During a reindex there is the genesis block but no active chain.
    assertThat (tree.mapBlockIndex.length ≤ 1) "mapBlockIndex.size() <= 1"
  else match tree.forward none with
    -- There is only one index entry with parent NULL.
    | [pindex] => do
      let nNodes ← tree.checkSubtree hashGenesisBlock tree.mapBlockIndex.length 0 {} pindex
      assertThat (nNodes = tree.mapBlockIndex.length) "nNodes == forward.size()"
    | _ => .error "rangeGenesis.first == rangeGenesis.second"

section Passed

variable {tree : Tree} {hashGenesisBlock : Uint256} {firsts : Firsts} {p q : Pointer}

theorem checkNode_ok {nHeight} (run : tree.checkNode hashGenesisBlock nHeight firsts p = .ok ())
    : (firsts.neverProcessed ≠ none ↔ (tree.index p).nChainTx = 0)
      ∧ (p ∈ tree.setBlockIndexCandidates → firsts.neverProcessed = none) := by
  unfold checkNode at run
  simp only [bind_ok, assertThat_ok, exists_const] at run
  obtain ⟨-, -, -, -, -, -, -, -, processed, -, -, -, -, -, -, -, -, -, rest⟩ := run
  refine ⟨processed, fun candidate => ?_⟩
  split at rest
  next good => exact good.2
  next =>
    obtain ⟨_, notCandidate, -⟩ := bind_ok.mp rest
    exact absurd candidate (of_decide_eq_false (assertThat_ok.mp notCandidate))

/-- The oldest ancestors as the search finds them on its way to the block. -/
def firstsOf (tree : Tree) (p : Pointer) : Firsts := (tree.path p).foldr tree.visit {}

/-- There is no first block with a property exactly if no block of the chain has it. -/
theorem firstsOf_none (first : Firsts → Option Pointer) (property : Pointer → Bool)
    (start : first {} = none := by rfl)
    (visit : ∀ q firsts, first (tree.visit q firsts) = firstWith (first firsts) q (property q)
      := by intros; rfl)
    : first (tree.firstsOf p) = none ↔ ∀ q ∈ tree.path p, property q = false := by
  rw [firstsOf]
  induction tree.path p with
  | nil => simp [start]
  | cons q rest ih =>
    rw [foldr_cons, visit, forall_mem_cons, ← ih, firstWith]
    cases first (rest.foldr tree.visit {}) <;> cases property q <;> simp

theorem firstsOf_neverProcessed
    : (tree.firstsOf p).neverProcessed = none ↔ ∀ q ∈ tree.path p, (tree.index q).nTx ≠ 0 := by
  simpa using firstsOf_none (·.neverProcessed) fun q => (tree.index q).nTx = 0

theorem checkSubtree_ok {fuel nHeight nNodes}
    (run : tree.checkSubtree hashGenesisBlock fuel nHeight firsts p = .ok nNodes)
    : tree.checkNode hashGenesisBlock nHeight (tree.visit p firsts) p = .ok ()
      ∧ ∀ child ∈ tree.forward (some p), ∃ fuel nNodes,
        tree.checkSubtree hashGenesisBlock fuel (nHeight + 1) (tree.visit p firsts) child
          = .ok nNodes := by
  cases fuel with
  | zero => cases run
  | succ fuel =>
    obtain ⟨_, node, children⟩ := bind_ok.mp run
    refine ⟨node, fun child listed => ?_⟩
    obtain ⟨_, _, visited⟩ := foldlM_accepts children listed
    obtain ⟨below, subtree, -⟩ := bind_ok.mp visited
    exact ⟨fuel, below, subtree⟩

section

variable (formed : tree.WellFormed)
include formed

section

variable (passed : tree.checkBlockIndex hashGenesisBlock = .ok ()) (active : tree.chainActive ≠ [])
  (mem : p ∈ tree.blocks)
include passed active mem

/-- The search has come to every block, from the genesis block on. -/
theorem checkBlockIndex_subtree
    : ∃ fuel nNodes firsts, tree.visit p firsts = tree.firstsOf p
      ∧ tree.checkSubtree hashGenesisBlock fuel (tree.index p).nHeight firsts p = .ok nNodes := by
  induction p using formed.graded.induction with
  | step p ih =>
    cases child : (tree.index p).pprev with
    | none =>
      have isRoot : p ∈ tree.forward none := mem_filter.mpr ⟨mem, decide_eq_true child⟩
      rw [checkBlockIndex, if_neg active] at passed
      split at passed
      next root single =>
        rw [single] at isRoot
        cases mem_singleton.mp isRoot
        obtain ⟨nNodes, search, -⟩ := bind_ok.mp passed
        refine ⟨tree.mapBlockIndex.length, nNodes, {}, ?_, ?_⟩
        · rw [firstsOf, formed.path_root child, foldr_cons, foldr_nil]
        · rw [formed.graded.root child]
          exact search
      next => cases passed
    | some q =>
      obtain ⟨fuel, nNodes, firsts, same, search⟩ := ih q child (formed.closed p q mem child)
      have listed : p ∈ tree.forward (some q) := mem_filter.mpr ⟨mem, decide_eq_true child⟩
      obtain ⟨fuel, nNodes, below⟩ := (checkSubtree_ok search).2 p listed
      refine ⟨fuel, nNodes, _, ?_, formed.graded.child child ▸ below⟩
      rw [firstsOf, formed.path_child child, foldr_cons, same, firstsOf]

theorem checkBlockIndex_node
    : tree.checkNode hashGenesisBlock (tree.index p).nHeight (tree.firstsOf p) p = .ok () := by
  obtain ⟨fuel, nNodes, firsts, same, search⟩ := checkBlockIndex_subtree formed passed active mem
  exact same ▸ (checkSubtree_ok search).1

end

/-- Where the check passes, the chain of every candidate is linked. -/
theorem checkBlockIndex_candidate (passed : tree.checkBlockIndex hashGenesisBlock = .ok ())
    (mem : p ∈ tree.blocks) (candidate : p ∈ tree.setBlockIndexCandidates)
    (ancestor : q ∈ tree.path p)
    : tree.linked q = true ∨ (tree.index q).nHeight = 0 := by
  have inside := formed.path_mem mem ancestor
  by_cases active : tree.chainActive = []
  · -- There is one block, which has no parent.
    rw [checkBlockIndex, if_pos active, assertThat_ok] at passed
    right
    cases child : (tree.index q).pprev with
    | none => exact formed.graded.root child
    | some r =>
      have few : tree.blocks.length ≤ 1 := by
        rw [blocks, length_map]
        exact passed
      have parent := formed.closed q r inside child
      have same : q = r := by
        revert few inside parent
        rcases tree.blocks with _ | ⟨only, _ | _⟩ <;> simp +contextual
      exact absurd (formed.graded.child child) (same ▸ Nat.ne_of_lt (Nat.lt_succ_self _))
  · left
    have never := (checkNode_ok (checkBlockIndex_node formed passed active mem)).2 candidate
    have processed : (tree.firstsOf q).neverProcessed = none :=
      firstsOf_neverProcessed.mpr fun r below =>
        firstsOf_neverProcessed.mp never r (formed.graded.ancestor_trans ancestor below)
    have chained := (checkNode_ok (checkBlockIndex_node formed passed active inside)).1
    exact decide_eq_true fun zero => chained.mpr zero processed

end

end Passed

end Tree

end Resistance.BlockTree

import Resistance.Wallet.WitnessHistory

/-! Blocks that are connected and disconnected one after the other. As long as the tip is not
more than `MAX_REORG_LENGTH` blocks below the highest block so far, no assertion fails and every
note that has been mined has an up-to-date witness; one block further down an assertion fails.
-/

namespace Resistance.Wallet.NoteCache

open List Primitives Zcash Lib Lib.Checks IncrementalMerkleTree

variable {context : Context} {chain : List CBlock} {d : Nat} {outputs : Outputs}

/-! A block. -/

/-- No outpoint occurs twice, and the outputs fit into the trees. -/
structure Fits (outputs : Outputs) : Prop where
  distinct : (outputs.map Prod.fst).Nodup
  room : ∀ pool, (outputs.commitments pool).length ≤ 2 ^ pool.depth

theorem Fits.left {more} (fits : Fits (outputs ++ more)) : Fits outputs where
  distinct := by
    have distinct := fits.distinct
    rw [map_append] at distinct
    exact distinct.of_append_left
  room := by
    intro pool
    have room := fits.room pool
    rw [Outputs.commitments, Outputs.ofPool, filter_append, map_append, length_append] at room
    exact (Nat.le_add_right _ _).trans room

variable {key : NoteKey} {commitment : Uint256} {state : Incrementing}

theorem Fits.unmined (fits : Fits (outputs ++ [(key, commitment)]))
    : key ∉ outputs.map Prod.fst := by
  have distinct := fits.distinct
  rw [map_append, nodup_append] at distinct
  intro listed
  exact distinct.2.2 key listed key (mem_singleton_self key) rfl

theorem Outputs.commitments_append (outputs : Outputs) (key : NoteKey) (commitment : Uint256)
    : Outputs.commitments (outputs ++ [(key, commitment)]) key.pool
      = outputs.commitments key.pool ++ [commitment] := by
  rw [Outputs.commitments, Outputs.ofPool_append_eq outputs rfl, map_append]
  rfl

theorem Fits.room_last (fits : Fits (outputs ++ [(key, commitment)]))
    : (outputs.commitments key.pool).length < 2 ^ key.pool.depth := by
  have room := fits.room key.pool
  rw [Outputs.commitments_append, length_append] at room
  exact room

variable {tree : IncrementalMerkleTree Uint256} {α : Type} {tx : CTransaction}

theorem Fits.tree_last (fits : Fits (outputs ++ [(key, commitment)]))
    (run : appendAll (context.hash key.pool) key.pool.depth {}
      (outputs.commitments key.pool) = .ok tree)
    : ∃ next, tree.append (context.hash key.pool) key.pool.depth commitment = .ok next
      ∧ appendAll (context.hash key.pool) key.pool.depth {}
        (Outputs.commitments (outputs ++ [(key, commitment)]) key.pool) = .ok next := by
  rw [Outputs.commitments_append]
  exact appendAll_last key.pool.depth_pos fits.room_last run commitment

/-- The state while the outputs of a block on top of the chain are gone through. -/
structure Midway (context : Context) (chain : List CBlock) (d : Nat) (outputs : Outputs)
    (state : Incrementing) : Prop where
  size : state.wallet.nWitnessCacheSize = cacheSize context (chain.length + 1) d
  below : ∀ key ∈ (chainOutputs chain).map Prod.fst, key ∈ outputs.map Prod.fst
  sproutTree : IncrementalMerkleTree.appendAll context.sproutHash incrementalMerkleTreeDepth {}
    (outputs.commitments .sprout) = .ok state.sproutTree
  saplingTree : IncrementalMerkleTree.appendAll context.saplingHash
    saplingIncrementalMerkleTreeDepth {} (outputs.commitments .sapling) = .ok state.saplingTree
  notes : state.wallet.All (Growing context chain outputs d)

/-- A note between the two parts of the work on an output. -/
def Appended (context : Context) (chain : List CBlock) (d : Nat) (outputs : Outputs)
    (key : NoteKey) (commitment : Uint256) (hash : Uint256) (other : NoteKey) (nd : NoteData)
    : Prop :=
  (hash = key.hash ∧ other = key) ∧ Growing context chain outputs d hash other nd
    ∨ ¬ (hash = key.hash ∧ other = key)
      ∧ Growing context chain (outputs ++ [(key, commitment)]) d hash other nd

/-- What an output does to the notes: the other ones get the commitment, its own is witnessed. -/
theorem growing_output {wallet append witness} (near : d ≤ context.maxReorgLength)
    (fits : Fits (outputs ++ [(key, commitment)]))
    (below : ∀ key ∈ (chainOutputs chain).map Prod.fst, key ∈ outputs.map Prod.fst)
    (run : appendAll (context.hash key.pool) key.pool.depth {}
      ((outputs ++ [(key, commitment)] : Outputs).commitments key.pool) = .ok tree)
    (appends : WalletWise append fun _ => inPool key.pool
      (NoteData.appendNoteCommitment (context.hash key.pool) key.pool.depth chain.length
        (cacheSize context (chain.length + 1) d) commitment))
    (witnesses : WalletWise witness (atHash key.hash (atKey key
      (NoteData.witnessNote chain.length (cacheSize context (chain.length + 1) d) tree.witness))))
    (notes : wallet.All (Growing context chain outputs d))
    : ∃ middle after, append wallet = .ok middle ∧ witness middle = .ok after
      ∧ after.nWitnessCacheSize = wallet.nWitnessCacheSize
      ∧ after.All (Growing context chain (outputs ++ [(key, commitment)]) d) := by
  obtain ⟨middle, first, sameSize, between⟩ := appends wallet
    (Appended context chain d outputs key commitment) fun hash other nd found => by
      have growing := notes hash other nd found
      by_cases own : hash = key.hash ∧ other = key
      · obtain ⟨rfl, rfl⟩ := own
        -- The note of an output has no witnesses before the output is come to.
        have none : nd.witnesses = [] := growing.cached.eq_nil fun mined => fits.unmined mined.2
        refine ⟨nd, ?_, .inl ⟨⟨rfl, rfl⟩, growing⟩⟩
        dsimp only
        rw [inPool, if_pos rfl, NoteData.appendNoteCommitment, none]
        rfl
      · obtain ⟨nd', appended, further⟩ := growing.append own fits.room_last
        exact ⟨nd', appended, .inr ⟨own, further⟩⟩
  obtain ⟨after, second, sameSize', all⟩ := witnesses middle
    (Growing context chain (outputs ++ [(key, commitment)]) d) fun hash other nd found => by
      rcases between hash other nd found with ⟨⟨rfl, rfl⟩, growing⟩ | ⟨notOwn, growing⟩
      · obtain ⟨nd', witnessed, further⟩ := growing.witnessOwn near fits.unmined below run
        refine ⟨nd', ?_, further⟩
        rw [atHash, if_pos rfl, atKey, if_pos rfl]
        exact witnessed
      · refine ⟨nd, ?_, growing⟩
        rw [atHash, atKey]
        split
        next sameHash => rw [if_neg fun sameKey => notOwn ⟨sameHash, sameKey⟩]
        next => rfl
  exact ⟨middle, after, first, second, sameSize'.trans sameSize, all⟩

theorem Midway.below_append (more : Outputs)
    (below : ∀ key ∈ (chainOutputs chain).map Prod.fst, key ∈ outputs.map Prod.fst)
    : ∀ key ∈ (chainOutputs chain).map Prod.fst, key ∈ (outputs ++ more).map Prod.fst := by
  intro key listed
  rw [map_append]
  exact mem_append_left _ (below key listed)

/-- A loop over outputs, by what it does for each of them. -/
theorem foldlM_outputs {step : Incrementing → α → Except String Incrementing} (output : α → Outputs)
    (each : ∀ outputs state a, Midway context chain d outputs state → Fits (outputs ++ output a)
      → ∃ after, step state a = .ok after ∧ Midway context chain d (outputs ++ output a) after)
    {list : List α} (midway : Midway context chain d outputs state)
    (fits : Fits (outputs ++ list.flatMap output))
    : ∃ after, list.foldlM step state = .ok after
      ∧ Midway context chain d (outputs ++ list.flatMap output) after := by
  induction list generalizing outputs state with
  | nil =>
    rw [flatMap_nil, append_nil]
    exact ⟨state, rfl, midway⟩
  | cons a rest ih =>
    rw [flatMap_cons, ← append_assoc] at fits ⊢
    obtain ⟨middle, first, midwayThen⟩ := each outputs state a midway fits.left
    obtain ⟨after, run, midwayNow⟩ := ih midwayThen fits
    exact ⟨after, foldlM_cons_ok.mpr ⟨middle, first, run⟩, midwayNow⟩

section

variable (midway : Midway context chain d outputs state) (near : d ≤ context.maxReorgLength)
include midway near

theorem Midway.sproutOutput {output} (fits : Fits (outputs ++ [(.sprout output.1, output.2)]))
    : ∃ after, Incrementing.sproutOutput context chain.length state output = .ok after
      ∧ Midway context chain d (outputs ++ [(.sprout output.1, output.2)]) after := by
  obtain ⟨tree, appended, run⟩ := fits.tree_last midway.sproutTree
  obtain ⟨middle, after, first, second, sameSize, notes⟩ := growing_output near fits midway.below
    run (CWallet.forTransactions_wise (CWalletTx.forSprout_wise _))
    (CWallet.atTransaction_wise (CWalletTx.witnessSprout_wise _ _) _) midway.notes
  refine ⟨{ state with sproutTree := tree, wallet := after }, ?_, ?_⟩
  · refine bind_ok.mpr ⟨tree, appended, ?_⟩
    rw [midway.size]
    exact bind_ok.mpr ⟨middle, first, bind_ok.mpr ⟨after, second, rfl⟩⟩
  · refine ⟨sameSize.trans midway.size, Midway.below_append _ midway.below, run, ?_, notes⟩
    have other : NoteKey.pool (.sprout output.1) ≠ .sapling := Pool.noConfusion
    rw [Outputs.commitments, Outputs.ofPool_append_ne outputs other]
    exact midway.saplingTree

theorem Midway.saplingOutput {output} (fits : Fits (outputs ++ [(.sapling output.1, output.2)]))
    : ∃ after, Incrementing.saplingOutput context chain.length state output = .ok after
      ∧ Midway context chain d (outputs ++ [(.sapling output.1, output.2)]) after := by
  obtain ⟨tree, appended, run⟩ := fits.tree_last midway.saplingTree
  obtain ⟨middle, after, first, second, sameSize, notes⟩ := growing_output near fits midway.below
    run (CWallet.forTransactions_wise (CWalletTx.forSapling_wise _))
    (CWallet.atTransaction_wise (CWalletTx.witnessSapling_wise _ _) _) midway.notes
  refine ⟨{ state with saplingTree := tree, wallet := after }, ?_, ?_⟩
  · refine bind_ok.mpr ⟨tree, appended, ?_⟩
    rw [midway.size]
    exact bind_ok.mpr ⟨middle, first, bind_ok.mpr ⟨after, second, rfl⟩⟩
  · refine ⟨sameSize.trans midway.size, Midway.below_append _ midway.below, ?_, run, notes⟩
    have other : NoteKey.pool (.sapling output.1) ≠ .sprout := Pool.noConfusion
    rw [Outputs.commitments, Outputs.ofPool_append_ne outputs other]
    exact midway.sproutTree

theorem Midway.transaction (fits : Fits (outputs ++ txOutputs tx))
    : ∃ after, Incrementing.transaction context chain.length state tx = .ok after
      ∧ Midway context chain d (outputs ++ txOutputs tx) after := by
  rw [txOutputs, map_eq_flatMap, map_eq_flatMap, ← append_assoc] at fits ⊢
  obtain ⟨middle, first, midwayThen⟩ := foldlM_outputs
    (fun output : JSOutPoint × Uint256 => [(NoteKey.sprout output.1, output.2)])
    (fun _ _ _ midway fits => Midway.sproutOutput midway near fits) midway fits.left
  obtain ⟨after, second, midwayNow⟩ := foldlM_outputs
    (fun output : SaplingOutPoint × Uint256 => [(NoteKey.sapling output.1, output.2)])
    (fun _ _ _ midway fits => Midway.saplingOutput midway near fits) midwayThen fits
  exact ⟨after, bind_ok.mpr ⟨middle, first, second⟩, midwayNow⟩

end

/-! Connecting and disconnecting a block. -/

/-- The wallet between two blocks. -/
structure Sound (context : Context) (chain : List CBlock) (d : Nat) (wallet : CWallet) : Prop where
  size : wallet.nWitnessCacheSize = cacheSize context chain.length d
  notes : wallet.All (Kept context chain d)

variable {wallet : CWallet} {block : CBlock}

theorem Sound.increment (sound : Sound context chain d wallet)
    (near : d ≤ context.maxReorgLength) (fits : Fits (chainOutputs (block :: chain)))
    {sproutTree saplingTree} (isSprout : appendAll context.sproutHash incrementalMerkleTreeDepth {}
      ((chainOutputs chain).commitments .sprout) = .ok sproutTree)
    (isSapling : appendAll context.saplingHash
      saplingIncrementalMerkleTreeDepth {} ((chainOutputs chain).commitments .sapling)
        = .ok saplingTree)
    : ∃ after, wallet.incrementNoteWitnesses context chain.length block sproutTree saplingTree
        = .ok after
      ∧ Sound context (block :: chain) (d - 1) after := by
  have nearNow : d - 1 ≤ context.maxReorgLength := (Nat.sub_le d 1).trans near
  obtain ⟨copied, first, sameSize, growing⟩ := CWallet.forTransactions_wise
    (CWalletTx.forBoth_wise (NoteData.copyPreviousWitness context.witnessCacheSize chain.length
      wallet.nWitnessCacheSize)) wallet (Growing context chain (chainOutputs chain) (d - 1))
    fun hash key nd found => by
      rw [sound.size]
      exact (sound.notes hash key nd found).copy near
  have size : (if copied.nWitnessCacheSize < context.witnessCacheSize
        then copied.nWitnessCacheSize + 1 else copied.nWitnessCacheSize)
      = cacheSize context (chain.length + 1) (d - 1) := by
    rw [sameSize, sound.size]
    split
    next room =>
      simp only [cacheSize, Context.witnessCacheSize] at room ⊢
      omega
    next full =>
      simp only [cacheSize] at full ⊢
      omega
  have midway : Midway context chain (d - 1) (chainOutputs chain) {
      sproutTree
      saplingTree
      wallet := {
        copied with
        nWitnessCacheSize := if copied.nWitnessCacheSize < context.witnessCacheSize
          then copied.nWitnessCacheSize + 1 else copied.nWitnessCacheSize } } :=
    ⟨size, fun _ => id, isSprout, isSapling, growing⟩
  obtain ⟨state, second, midwayNow⟩ := foldlM_outputs txOutputs
    (fun _ _ _ midway fits => Midway.transaction midway nearNow fits) midway fits
  obtain ⟨after, third, sizeNow, kept⟩ := CWallet.forTransactions_wise
    (CWalletTx.forBoth_wise (NoteData.updateWitnessHeight chain.length
      (cacheSize context (chain.length + 1) (d - 1)))) state.wallet
    (Kept context (block :: chain) (d - 1))
    fun hash key nd found => (midwayNow.notes hash key nd found).update
  refine ⟨after, ?_, sizeNow.trans midwayNow.size, kept⟩
  refine bind_ok.mpr ⟨copied, first, bind_ok.mpr ⟨state, second, ?_⟩⟩
  simp only [size]
  exact third

theorem Sound.decrement (sound : Sound context (block :: chain) d wallet)
    (near : d + 1 ≤ context.maxReorgLength) (notFirst : chain ≠ [])
    : ∃ after, wallet.decrementNoteWitnesses chain.length = .ok after
      ∧ Sound context chain (d + 1) after := by
  have isSize := sound.size
  obtain ⟨middle, run, sameSize, kept⟩ := CWallet.forTransactions_wise
    (CWalletTx.forBoth_wise (NoteData.decrementNoteWitness chain.length wallet.nWitnessCacheSize))
    wallet (Kept context chain (d + 1))
    fun hash key nd found => by
      rw [isSize]
      exact (sound.notes hash key nd found).decrement near
  have size : middle.nWitnessCacheSize - 1 = cacheSize context chain.length (d + 1) := by
    rw [sameSize, isSize]
    simp only [cacheSize, Context.witnessCacheSize, length_cons]
    omega
  refine ⟨{ middle with nWitnessCacheSize := middle.nWitnessCacheSize - 1 }, ?_, size, kept⟩
  refine bind_ok.mpr ⟨middle, run, bind_ok.mpr ⟨(), assertThat_ok.mpr ?_, rfl⟩⟩
  have length := length_pos_of_ne_nil notFirst
  rw [size, cacheSize, Context.witnessCacheSize]
  omega

/-- One block further down the counter of the cache is used up. -/
theorem Sound.decrement_fails (sound : Sound context (block :: chain) context.maxReorgLength wallet)
    (after : CWallet)
    : wallet.decrementNoteWitnesses chain.length ≠ .ok after := by
  intro run
  obtain ⟨middle, first, rest⟩ := bind_ok.mp run
  obtain ⟨_, positive, -⟩ := bind_ok.mp rest
  have positive := assertThat_ok.mp positive
  obtain ⟨_, -, isMiddle⟩ := bind_ok.mp first
  cases isMiddle
  have size : wallet.nWitnessCacheSize - 1 > 0 := positive
  rw [sound.size, cacheSize, Context.witnessCacheSize]
    at size
  omega

/-! Runs. -/

/-- What happens to the wallet: a transaction of ours is found, a block is connected on top of the
tip, or the tip is disconnected.
-/
inductive Move where
  | add (hash : Uint256) (wtx : CWalletTx)
  | increment (block : CBlock)
  | decrement

/-- A wallet and the chain that it follows, with the tip first. -/
structure Node where
  wallet : CWallet := {}
  chain : List CBlock := []

/-- The trees that `ChainTip` is called with are those of the chain below the new block. -/
def Node.step (context : Context) (node : Node) : Move → Except String Node
  | .add hash wtx => return { node with wallet := node.wallet.addToWallet hash wtx }
  | .increment block => do
    let outputs := chainOutputs node.chain
    let sproutTree ← IncrementalMerkleTree.appendAll context.sproutHash
      incrementalMerkleTreeDepth {} (outputs.commitments .sprout)
    let saplingTree ← IncrementalMerkleTree.appendAll context.saplingHash
      saplingIncrementalMerkleTreeDepth {} (outputs.commitments .sapling)
    return {
      wallet := ← node.wallet.incrementNoteWitnesses context node.chain.length block sproutTree
        saplingTree
      chain := block :: node.chain }
  | .decrement =>
    match node.chain with
    | [] => return node
    | _ :: below => do
      return { wallet := ← node.wallet.decrementNoteWitnesses below.length, chain := below }

def Node.run (context : Context) (node : Node) (moves : List Move) : Except String Node :=
  moves.foldlM (Node.step context) node

/-- The chain, and the largest number of blocks that it has had. -/
structure Course where
  chain : List CBlock := []
  highest : Nat := 0

def Course.move (course : Course) : Move → Course
  | .add _ _ => course
  | .increment block => {
      chain := block :: course.chain
      highest := max course.highest (course.chain.length + 1) }
  | .decrement => { course with chain := course.chain.tail }

def txids (chain : List CBlock) : List Uint256 :=
  chain.flatMap fun block => block.vtx.map CTransaction.getHash

/-- What a move has to do with the active chain. A transaction is found before its block is
connected, and its notes are new. Blocks have been validated: no transaction is repeated in the
chain, and the trees of all note commitments have room for them. The first block stays.
-/
def Course.Allows (course : Course) : Move → Prop
  | .add hash wtx => hash ∉ txids course.chain ∧ ∀ key nd, wtx.note key = some nd → nd = {}
  | .increment block => (txids (block :: course.chain)).Nodup
      ∧ ∀ pool, ((chainOutputs (block :: course.chain)).commitments pool).length ≤ 2 ^ pool.depth
  | .decrement => 2 ≤ course.chain.length

/-- The moves follow the active chain. -/
def Course.Follows (course : Course) : List Move → Prop
  | [] => True
  | move :: rest => course.Allows move ∧ (course.move move).Follows rest

/-- The tip never is further below the highest block so far. -/
def Course.Near (maxReorgLength : Nat) (course : Course) : List Move → Prop
  | [] => True
  | move :: rest => (course.move move).highest ≤ (course.move move).chain.length + maxReorgLength
      ∧ (course.move move).Near maxReorgLength rest

/-! The outputs of a validated chain. -/

theorem hash_of_txOutputs (listed : key ∈ (txOutputs tx).map Prod.fst)
    : key.hash = tx.getHash := by
  simp only [txOutputs, sproutOutputs, saplingOutputs, map_append, map_map,
    mem_append, mem_map, mem_flatMap] at listed
  rcases listed with ⟨_, ⟨_, -, _, -, rfl⟩, rfl⟩ | ⟨_, -, rfl⟩
  · rfl
  · rfl

/-- Distinct positions give distinct outpoints. -/
theorem nodup_zipIdx_map {β} (list : List α) {f : Nat → β} (injective : f.Injective)
    : (list.zipIdx.map fun entry => f entry.2).Nodup := by
  have positions := (nodup_zipIdx_map_snd list).map injective
  rw [map_map] at positions
  exact positions

theorem distinct_sprout (tx : CTransaction)
    : ((sproutOutputs tx).map fun output => NoteKey.sprout output.1).Nodup := by
  have keys : (sproutOutputs tx).map (fun output => NoteKey.sprout output.1)
      = tx.vJoinSplit.zipIdx.flatMap fun jsdesc => jsdesc.1.commitments.toList.zipIdx.map
          fun commitment => NoteKey.sprout ⟨tx.getHash, jsdesc.2, commitment.2⟩ := by
    rw [sproutOutputs, map_flatMap]
    simp only [map_map]
    rfl
  rw [keys, nodup_flatMap]
  refine ⟨fun jsdesc _ => ?_, ?_⟩
  · refine nodup_zipIdx_map jsdesc.1.commitments.toList (f := fun j =>
      NoteKey.sprout ⟨tx.getHash, jsdesc.2, j⟩) fun i j same => ?_
    cases same
    rfl
  · have positions := pairwise_map.mp (nodup_zipIdx_map_snd tx.vJoinSplit)
    refine positions.imp fun differs key first second => ?_
    obtain ⟨_, -, rfl⟩ := mem_map.mp first
    obtain ⟨_, -, same⟩ := mem_map.mp second
    exact differs (JSOutPoint.mk.inj (NoteKey.sprout.inj same)).2.1.symm

theorem distinct_txOutputs (tx : CTransaction) : ((txOutputs tx).map Prod.fst).Nodup := by
  rw [txOutputs, map_append, map_map, map_map, nodup_append]
  refine ⟨distinct_sprout tx, ?_, ?_⟩
  · rw [saplingOutputs, map_map]
    refine nodup_zipIdx_map tx.vShieldedOutput (f := fun i => NoteKey.sapling ⟨tx.getHash, i⟩)
      fun i j same => ?_
    cases same
    rfl
  · intro _ first _ second
    obtain ⟨_, -, rfl⟩ := mem_map.mp first
    obtain ⟨_, -, rfl⟩ := mem_map.mp second
    exact nofun

theorem hash_of_blockOutputs {block} (listed : key ∈ (blockOutputs block).map Prod.fst)
    : key.hash ∈ block.vtx.map CTransaction.getHash := by
  rw [blockOutputs, map_flatMap] at listed
  obtain ⟨tx, mem, inTx⟩ := mem_flatMap.mp listed
  rw [hash_of_txOutputs inTx]
  exact mem_map_of_mem mem

theorem hash_of_chainOutputs (listed : key ∈ (chainOutputs chain).map Prod.fst)
    : key.hash ∈ txids chain := by
  induction chain with
  | nil => cases listed
  | cons block below ih =>
    rw [chainOutputs, map_append, mem_append] at listed
    rcases listed with lower | here
    · exact mem_append_right _ (ih lower)
    · exact mem_append_left _ (hash_of_blockOutputs here)

theorem distinct_blockOutputs {block} (distinct : (block.vtx.map CTransaction.getHash).Nodup)
    : ((blockOutputs block).map Prod.fst).Nodup := by
  rw [blockOutputs, map_flatMap, nodup_flatMap]
  refine ⟨fun tx _ => distinct_txOutputs tx, ?_⟩
  refine (pairwise_map.mp distinct).imp fun differs key first second => ?_
  exact differs ((hash_of_txOutputs first).symm.trans (hash_of_txOutputs second))

theorem distinct_chainOutputs (distinct : (txids chain).Nodup)
    : ((chainOutputs chain).map Prod.fst).Nodup := by
  induction chain with
  | nil => exact nodup_nil
  | cons block below ih =>
    rw [txids, flatMap_cons, nodup_append] at distinct
    obtain ⟨here, lower, apart⟩ := distinct
    rw [chainOutputs, map_append, nodup_append]
    refine ⟨ih lower, distinct_blockOutputs here, ?_⟩
    rintro key inBelow _ inBlock rfl
    exact apart key.hash (hash_of_blockOutputs inBlock) key.hash (hash_of_chainOutputs inBelow) rfl

/-! Steps and runs. -/

/-- The wallet stands where the course of the chain is. -/
structure Stands (context : Context) (course : Course) (node : Node) : Prop where
  chain : node.chain = course.chain
  reached : course.chain.length ≤ course.highest
  near : course.highest ≤ course.chain.length + context.maxReorgLength
  valid : Fits (chainOutputs course.chain)
  sound : Sound context course.chain (course.highest - course.chain.length) node.wallet

variable {course : Course} {node : Node}

theorem stands_first (context : Context) : Stands context {} {} where
  chain := rfl
  reached := le_refl 0
  near := Nat.zero_le _
  valid := ⟨nodup_nil, fun _ => Nat.zero_le _⟩
  sound := by
    refine ⟨?_, fun hash key nd found => ?_⟩
    · simp [cacheSize]
    · cases found

section

variable (stands : Stands context course node)
include stands

theorem Stands.add {hash wtx} (allowed : course.Allows (.add hash wtx))
    : Stands context course { node with wallet := node.wallet.addToWallet hash wtx } := by
  obtain ⟨outside, fresh⟩ := allowed
  refine { stands with sound := ?_ }
  obtain ⟨size, notes⟩ := stands.sound
  rw [CWallet.addToWallet]
  split
  next absent =>
    refine ⟨size, fun other key nd found => ?_⟩
    obtain ⟨there, isThere, isNote⟩ := CWallet.note_some.mp found
    rcases FiniteMap.lookup_insert_cases isThere with ⟨rfl, rfl⟩ | ⟨-, before⟩
    · cases fresh key nd isNote
      refine kept_new ?_ fun mined => ?_
      · have near := stands.near
        omega
      · rw [← mined.1] at outside
        exact outside (hash_of_chainOutputs mined.2)
    · exact notes other key nd (CWallet.note_some.mpr ⟨there, before, isNote⟩)
  next => exact ⟨size, notes⟩

theorem Stands.increment {block} (allowed : course.Allows (.increment block))
    : ∃ after, node.step context (.increment block) = .ok after
      ∧ Stands context (course.move (.increment block)) after := by
  obtain ⟨distinct, room⟩ := allowed
  have fits : Fits (chainOutputs (block :: course.chain)) := ⟨distinct_chainOutputs distinct, room⟩
  obtain ⟨sproutTree, isSprout, -⟩ := appendAll_empty context.sproutHash
    (Pool.depth_pos .sprout) (stands.valid.room .sprout)
  obtain ⟨saplingTree, isSapling, -⟩ := appendAll_empty context.saplingHash
    (Pool.depth_pos .sapling) (stands.valid.room .sapling)
  have near := stands.near
  obtain ⟨wallet, run, sound⟩ := stands.sound.increment (by omega) fits isSprout isSapling
  refine ⟨⟨wallet, block :: course.chain⟩, ?_, ?_⟩
  · simp only [Node.step, stands.chain]
    exact bind_ok.mpr ⟨sproutTree, isSprout, bind_ok.mpr ⟨saplingTree, isSapling,
      bind_ok.mpr ⟨wallet, run, rfl⟩⟩⟩
  have depth : max course.highest (course.chain.length + 1) - (course.chain.length + 1)
      = course.highest - course.chain.length - 1 := by
    omega
  exact {
    chain := rfl
    reached := le_max_right _ _
    near := by
      simp only [Course.move, length_cons]
      omega
    valid := fits
    sound := by
      simp only [Course.move, length_cons]
      rw [depth]
      exact sound }

/-- The tip is disconnected exactly if it does not come too far below the highest block. -/
theorem Stands.decrement (allowed : course.Allows .decrement)
    (near : (course.move .decrement).highest
      ≤ (course.move .decrement).chain.length + context.maxReorgLength)
    : ∃ after, node.step context .decrement = .ok after
      ∧ Stands context (course.move .decrement) after := by
  obtain ⟨chain, highest⟩ := course
  obtain ⟨isChain, reached, -, valid, sound⟩ := stands
  cases chain with
  | nil => cases allowed
  | cons block below =>
    have long : 2 ≤ (block :: below).length := allowed
    simp only [Course.move, tail_cons, length_cons] at near reached sound long
    have depth : highest - below.length = highest - (below.length + 1) + 1 := by omega
    obtain ⟨wallet, run, soundNow⟩ := sound.decrement (by omega)
      (ne_nil_of_length_pos (by omega))
    refine ⟨⟨wallet, below⟩, ?_, ?_⟩
    · simp only [Node.step, isChain]
      exact bind_ok.mpr ⟨wallet, run, rfl⟩
    · exact {
        chain := rfl
        reached := by
          simp only [Course.move, tail_cons]
          omega
        near := near
        valid := valid.left
        sound := by
          simp only [Course.move, tail_cons]
          rw [depth]
          exact soundNow }

theorem Stands.decrement_near (allowed : course.Allows .decrement) {after}
    (run : node.step context .decrement = .ok after)
    : (course.move .decrement).highest
      ≤ (course.move .decrement).chain.length + context.maxReorgLength := by
  obtain ⟨chain, highest⟩ := course
  obtain ⟨isChain, reached, near, -, sound⟩ := stands
  cases chain with
  | nil => cases allowed
  | cons block below =>
    by_contra far
    simp only [Course.move, tail_cons, length_cons] at far near reached sound
    have depth : highest - (below.length + 1) = context.maxReorgLength := by omega
    rw [depth] at sound
    simp only [Node.step, isChain] at run
    obtain ⟨wallet, decremented, -⟩ := bind_ok.mp run
    exact sound.decrement_fails wallet decremented

/-- A move succeeds exactly if the tip does not come too far below the highest block, and the
wallet stands where the chain is then.
-/
theorem Stands.step {move} (allowed : course.Allows move)
    : ((∃ after, node.step context move = .ok after)
        ↔ (course.move move).highest ≤ (course.move move).chain.length + context.maxReorgLength)
      ∧ ∀ after, node.step context move = .ok after → Stands context (course.move move) after := by
  cases move with
  | add hash wtx =>
    have further := stands.add allowed
    refine ⟨iff_of_true ⟨_, rfl⟩ further.near, ?_⟩
    rintro _ ⟨⟩
    exact further
  | increment block =>
    obtain ⟨after, run, further⟩ := stands.increment allowed
    refine ⟨iff_of_true ⟨after, run⟩ further.near, fun other same => ?_⟩
    cases run.symm.trans same
    exact further
  | decrement =>
    refine ⟨⟨fun ⟨after, run⟩ => stands.decrement_near allowed run, fun near => ?_⟩,
      fun other same => ?_⟩
    · obtain ⟨after, run, -⟩ := stands.decrement allowed near
      exact ⟨after, run⟩
    · obtain ⟨after, run, further⟩ := stands.decrement allowed (stands.decrement_near allowed same)
      cases run.symm.trans same
      exact further

/-- A run succeeds exactly if the tip never comes too far below the highest block so far. -/
theorem Stands.run {moves} (follows : course.Follows moves)
    : ((∃ after, node.run context moves = .ok after) ↔ course.Near context.maxReorgLength moves)
      ∧ ∀ after, node.run context moves = .ok after
        → Stands context (moves.foldl Course.move course) after := by
  induction moves generalizing course node with
  | nil =>
    refine ⟨iff_of_true ⟨node, rfl⟩ trivial, ?_⟩
    rintro _ ⟨⟩
    exact stands
  | cons move rest ih =>
    obtain ⟨allowed, later⟩ := follows
    obtain ⟨succeeds, further⟩ := stands.step allowed
    refine ⟨⟨?_, ?_⟩, ?_⟩
    · rintro ⟨after, run⟩
      obtain ⟨middle, first, second⟩ := foldlM_cons_ok.mp run
      exact ⟨succeeds.mp ⟨middle, first⟩, (ih (further middle first) later).1.mp ⟨after, second⟩⟩
    · rintro ⟨near, nearLater⟩
      obtain ⟨middle, first⟩ := succeeds.mpr near
      obtain ⟨after, second⟩ := (ih (further middle first) later).1.mpr nearLater
      exact ⟨after, foldlM_cons_ok.mpr ⟨middle, first, second⟩⟩
    · intro after run
      obtain ⟨middle, first, second⟩ := foldlM_cons_ok.mp run
      exact (ih (further middle first) later).2 after second

/-- A note that has been mined in the chain has an up-to-date witness at the front of its cache. -/
theorem Stands.front {hash nd} (found : node.wallet.note hash key = some nd)
    (mined : Mined (chainOutputs course.chain) hash key)
    : ∃ front rest n, nd.witnesses = front :: rest
      ∧ (((chainOutputs course.chain).ofPool key.pool).map Prod.fst)[n]? = some key
      ∧ Authenticates (context.hash key.pool) key.pool.depth
          ((chainOutputs course.chain).commitments key.pool) n front := by
  have kept := stands.sound.notes hash key nd found
  have near := stands.near
  have pos := kept.pos (by omega) mined
  have covers := kept.cached.covers
  cases isList : nd.witnesses with
  | nil =>
    rw [isList] at pos
    cases pos
  | cons front rest =>
    rw [isList] at covers
    cases isChain : course.chain with
    | nil =>
      rw [isChain] at covers
      cases covers
    | cons block below =>
      rw [isChain] at covers
      cases covers with
      | cons first =>
        obtain ⟨n, position, tracks⟩ := first.tracks
        refine ⟨front, rest, n, rfl, position, ?_⟩
        exact tracks.authenticates key.pool.depth_pos (isChain ▸ stands.valid.room key.pool)

end

/-- A transaction with one Sapling output. -/
def shieldedTx : CTransaction := { hash := .null, vShieldedOutput := [{}] }

/-- The note of the transaction is found; its block is connected on top of the first one, then a
third block, which is disconnected again.
-/
def shieldedMoves : List Move :=
  [.add .null { mapSaplingNoteData := AList.insert ⟨.null, 0⟩ {} ∅ }, .increment {},
    .increment { vtx := [shieldedTx] }, .increment {}, .decrement]

/-- The parameters of the test networks, with a simple hash function. -/
def testContext : Context where
  sproutHash := MerkleHash.ofCombine (fun left _ _ => left) .null List.Vector.toList
  saplingHash := MerkleHash.ofCombine (fun left _ _ => left) .null List.Vector.toList
  maxReorgLength := 1
  small := by decide

theorem shieldedMoves_follow : Course.Follows {} shieldedMoves := by
  refine ⟨⟨by decide, ?_⟩, ⟨by decide, ?_⟩, ⟨by decide, ?_⟩, ⟨by decide, ?_⟩,
    (by decide : 2 ≤ 3), trivial⟩
  · intro key nd found
    cases key with
    | sprout => cases found
    | sapling key =>
      rcases FiniteMap.lookup_insert_cases found with ⟨-, isNew⟩ | ⟨-, before⟩
      · exact isNew
      · cases before
  all_goals
    intro pool
    cases pool <;> decide

/-- No assertion fails in a run that follows the chain if and only if its tip never is more than
`MAX_REORG_LENGTH` blocks below the highest block so far.
-/
theorem run_succeeds_iff (context : Context) {moves : List Move} (follows : Course.Follows {} moves)
    : (∃ node, Node.run context {} moves = .ok node)
      ↔ Course.Near context.maxReorgLength {} moves :=
  ((stands_first context).run follows).1

theorem run_succeeds_iff_shielded
    : Course.Follows {} shieldedMoves
      ∧ ((∃ node, Node.run testContext {} shieldedMoves = .ok node)
        ↔ Course.Near 1 {} shieldedMoves) :=
  ⟨shieldedMoves_follow, run_succeeds_iff testContext shieldedMoves_follow⟩

/-! Two reorganisations. -/

/-- Blocks without transactions are connected and disconnected, and the first one stays. -/
def staysUp : Nat → List Move → Bool
  | _, [] => true
  | _, .add _ _ :: _ => false
  | height, .increment block :: rest => block.vtx.isEmpty && staysUp (height + 1) rest
  | height, .decrement :: rest => decide (2 ≤ height) && staysUp (height - 1) rest

theorem chainOutputs_of_empty (empty : ∀ block ∈ chain, block.vtx = [])
    : chainOutputs chain = [] := by
  induction chain with
  | nil => rfl
  | cons block below ih =>
    obtain ⟨here, lower⟩ := forall_mem_cons.mp empty
    rw [chainOutputs, ih lower, blockOutputs, here]
    rfl

theorem follows_of_staysUp {course : Course} {moves}
    (empty : ∀ block ∈ course.chain, block.vtx = []) (up : staysUp course.chain.length moves = true)
    : course.Follows moves := by
  induction moves generalizing course with
  | nil => trivial
  | cons move rest ih =>
    cases move with
    | add => cases up
    | increment block =>
      rw [staysUp, Bool.and_eq_true, List.isEmpty_iff] at up
      obtain ⟨isEmpty, later⟩ := up
      have emptyNow : ∀ other ∈ block :: course.chain, other.vtx = [] :=
        forall_mem_cons.mpr ⟨isEmpty, empty⟩
      refine ⟨⟨?_, fun pool => ?_⟩, ih emptyNow later⟩
      · rw [txids, flatMap_eq_nil_iff.mpr fun other mem => by rw [emptyNow other mem]; rfl]
        exact nodup_nil
      · rw [chainOutputs_of_empty emptyNow]
        exact Nat.zero_le _
    | decrement =>
      rw [staysUp, Bool.and_eq_true, decide_eq_true_eq] at up
      refine ⟨up.1, ih (fun other lower => empty other (mem_of_mem_tail lower)) ?_⟩
      rw [Course.move, length_tail]
      exact up.2

/-- The parameters of the main network, with a simple hash function. -/
def mainContext : Context := { testContext with maxReorgLength := 99, small := by decide }

/-- From a chain of 200 blocks, two reorganisations: the first one disconnects 99 blocks for a
heavier branch of one block, the second one disconnects two blocks.
-/
def twoReorganisations : List Move :=
  List.replicate 200 (.increment {}) ++ (List.replicate 99 .decrement ++ [.increment {}])
    ++ [.decrement, .decrement, .increment {}]

theorem twoReorganisations_fail
    : Course.Follows {} twoReorganisations
      ∧ ∀ node, Node.run mainContext {} twoReorganisations ≠ .ok node := by
  refine ⟨follows_of_staysUp nofun (by decide +kernel), fun node run => ?_⟩
  have failed : (Node.run mainContext {} twoReorganisations).isOk = false := by decide +kernel
  rw [run] at failed
  cases failed

end Resistance.Wallet.NoteCache

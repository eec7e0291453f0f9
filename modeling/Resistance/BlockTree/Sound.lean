import Resistance.BlockTree.Activation

/-! The invariant of the block tree under all moves: what is linked, what is active, and that
every linked block without a mark of failure that is as good as the tip is a candidate.
-/

namespace Resistance.BlockTree

open Primitives Lib.Forest Lib.Checks CBlockIndex

namespace Tree

/-- What does not depend on the status of blocks, other than whether they have data. -/
structure Base (tree : Tree) : Prop where
  formed : tree.WellFormed
  linking : tree.Linking []
  skips : tree.Skips
  content : ∀ p ∈ tree.blocks, tree.hasData p = true
    → (tree.index p).nTx ≠ 0 ∧ ∃ value, (tree.index p).nSproutValue = some value
  work : ∀ p ∈ tree.blocks, ∀ q, (tree.index p).pprev = some q
    → (tree.index q).nChainWork < (tree.index p).nChainWork

/-- The active chain has no marks of failure, and every linked block without such a mark that
is as good as the tip is a candidate.
-/
structure Chosen (tree : Tree) : Prop where
  active : ∃ tip, tree.ActiveIs tip ∧ ∀ t, tip = some t
    → tree.linked t = true ∧ ∀ q ∈ tree.path t, (tree.index q).nStatus.failed = false
  candidates : ∀ p ∈ tree.setBlockIndexCandidates, p ∈ tree.blocks ∧ tree.linked p = true
  complete : ∀ p ∈ tree.blocks, tree.linked p = true → (tree.index p).nStatus.failed = false
    → tree.notWorseThanTip p = true → p ∈ tree.setBlockIndexCandidates

/-- The invariant. -/
structure Sound (tree : Tree) : Prop extends Base tree, Chosen tree where
  valid : ∀ p ∈ tree.blocks, BlockValidity.tree.level ≤ (tree.index p).nStatus.valid.level
  received : ∀ p ∈ tree.blocks, tree.hasData p = true
    → BlockValidity.transactions.level ≤ (tree.index p).nStatus.valid.level

theorem sound_start : Sound {} where
  formed := wellFormed_start
  linking := linking_start
  skips := fun _ _ pointer => nomatch pointer
  content := nofun
  work := nofun
  valid := nofun
  received := nofun
  active := ⟨none, rfl, nofun⟩
  candidates := nofun
  complete := nofun

variable {tree after : Tree}

section

variable (same : SameLinks tree after)
include same

theorem SameLinks.skips (skips : tree.Skips) : after.Skips := by
  intro p skip
  rw [same.path, same.field (·.pskip), same.field (·.nHeight), same.field (·.nHeight)]
  exact skips p skip

theorem SameLinks.base (base : Base tree) : Base after where
  formed := same.wellFormed base.formed
  linking := same.linking base.linking
  skips := same.skips base.skips
  content := by
    intro p
    rw [same.blocks, same.haveData, same.field (·.nTx), same.field (·.nSproutValue)]
    exact base.content p
  work := by
    intro p
    rw [same.blocks, same.field (·.pprev), same.field (·.nChainWork)]
    intro mem q child
    rw [same.field (·.nChainWork)]
    exact base.work p mem q child

theorem SameLinks.rank (p : Pointer) : after.rank p = tree.rank p :=
  rank_congr (same.field (·.nChainWork) p) (same.field (·.nSequenceId) p)

theorem SameLinks.worse (p q : Pointer)
    : after.worse p q = tree.worse p q := by
  rw [Bool.eq_iff_iff, worse_iff, worse_iff, same.rank, same.rank]

theorem SameLinks.chainOf (p : Pointer)
    : after.chainOf p = tree.chainOf p := by
  rw [Tree.chainOf, same.path, Tree.chainOf]

/-- The active chain stays that of the same block where the vector does. -/
theorem SameLinks.activeIs (chain : after.chainActive = tree.chainActive) {tip}
    (active : tree.ActiveIs tip)
    : after.ActiveIs tip := by
  cases tip with
  | none => exact chain.trans active
  | some p =>
    constructor
    · rw [same.blocks]
      exact active.1
    · rw [chain, same.chainOf]
      exact active.2

end

theorem SameLinks.refl (tree : Tree) : SameLinks tree tree :=
  ⟨rfl, rfl, fun _ => rfl, fun _ => rfl, fun _ _ => rfl⟩

theorem SameLinks.trans {middle} (first : SameLinks tree middle) (second : SameLinks middle after)
    : SameLinks tree after where
  mapBlockIndex := second.mapBlockIndex.trans first.mapBlockIndex
  unlinked := second.unlinked.trans first.unlinked
  entry := by
    intro p
    rw [← first.entry p, ← second.entry p]
  haveData := fun p => (second.haveData p).trans (first.haveData p)
  outside := by
    intro p outside
    rw [second.outside p (first.blocks ▸ outside), first.outside p outside]

/-- Changing the status of a block that keeps its data. -/
theorem sameLinks_modify (tree : Tree) {p} (mem : p ∈ tree.blocks) {f}
    (status : ∀ entry, { f entry with nStatus := entry.nStatus } = entry)
    (haveData : ∀ entry, (f entry).nStatus.haveData = entry.nStatus.haveData)
    : SameLinks tree (tree.modify p f) where
  mapBlockIndex := rfl
  unlinked := rfl
  entry := by
    intro q
    by_cases same : q = p
    · subst same
      rw [index_modify_self]
      exact status _
    · rw [index_modify_ne tree f same]
  haveData := fun q => modify_field (fun entry => entry.nStatus.haveData) q haveData
  outside := by
    intro q outside
    exact index_modify_ne tree f fun same => outside (same ▸ mem)

/-- Only the choice of candidates has to be proved again when blocks do not get less valid. -/
theorem SameLinks.sound (same : SameLinks tree after) (sound : Sound tree)
    (level : ∀ p, (tree.index p).nStatus.valid.level ≤ (after.index p).nStatus.valid.level)
    (chosen : Chosen after)
    : Sound after := by
  refine ⟨same.base sound.toBase, chosen, ?_, ?_⟩
  · intro p known
    exact (sound.valid p (same.blocks ▸ known)).trans (level p)
  · intro p known data
    rw [same.haveData] at data
    exact (sound.received p (same.blocks ▸ known) data).trans (level p)

variable {p address : Pointer}

theorem notWorseThanTip_congr (chain : after.tip = tree.tip) (rank : after.rank p = tree.rank p)
    (tipRank : ∀ t, tree.tip = some t → after.rank t = tree.rank t)
    : after.notWorseThanTip p = tree.notWorseThanTip p := by
  rw [Bool.eq_iff_iff, notWorseThanTip_iff, notWorseThanTip_iff, chain, rank]
  exact forall₂_congr fun t isTip => by rw [tipRank t isTip]

theorem SameLinks.notWorseThanTip (same : SameLinks tree after)
    (chain : after.chainActive = tree.chainActive)
    : after.notWorseThanTip p = tree.notWorseThanTip p := by
  refine notWorseThanTip_congr ?_ (same.rank p) fun t _ => same.rank t
  rw [tip, chain, tip]

/-- The choice stays while blocks are added, and linked as candidates if they are good enough. -/
theorem Chosen.grown (chosen : Chosen tree) (formed : tree.WellFormed)
    (chain : after.chainActive = tree.chainActive) (blocks : ∀ p ∈ tree.blocks, p ∈ after.blocks)
    (path : ∀ p ∈ tree.blocks, after.path p = tree.path p)
    (failed : ∀ p ∈ tree.blocks, (after.index p).nStatus.failed = (tree.index p).nStatus.failed)
    (linked : ∀ p ∈ tree.blocks, tree.linked p = true
      → after.linked p = true ∧ after.rank p = tree.rank p)
    (kept : ∀ p ∈ tree.setBlockIndexCandidates, p ∈ after.setBlockIndexCandidates)
    (candidates : ∀ p ∈ after.setBlockIndexCandidates,
      p ∈ tree.setBlockIndexCandidates ∨ p ∈ after.blocks ∧ after.linked p = true)
    (complete : ∀ p ∈ after.blocks, after.linked p = true
      → p ∈ tree.blocks ∧ tree.linked p = true
        ∨ (after.notWorseThanTip p = true → p ∈ after.setBlockIndexCandidates))
    : Chosen after := by
  obtain ⟨tip, active, unfailed⟩ := chosen.active
  have activeAfter : after.ActiveIs tip := by
    cases tip with
    | none => exact chain.trans active
    | some t =>
      refine ⟨blocks t active.1, ?_⟩
      rw [chain, active.2, chainOf, chainOf, path t active.1]
  refine ⟨⟨tip, activeAfter, ?_⟩, ?_, ?_⟩
  · rintro t rfl
    obtain ⟨isLinked, clean⟩ := unfailed t rfl
    rw [path t active.1]
    refine ⟨(linked t active.1 isLinked).1, fun q ancestor => ?_⟩
    rw [failed q (formed.path_mem active.1 ancestor)]
    exact clean q ancestor
  · intro p candidate
    rcases candidates p candidate with before | new
    · obtain ⟨mem, isLinked⟩ := chosen.candidates p before
      exact ⟨blocks p mem, (linked p mem isLinked).1⟩
    · exact new
  · intro p mem isLinked notFailed notWorse
    rcases complete p mem isLinked with ⟨old, before⟩ | new
    · rw [failed p old] at notFailed
      refine kept p (chosen.complete p old before notFailed ?_)
      rw [← notWorse]
      refine (notWorseThanTip_congr ?_ (linked p old before).2 fun t isTip => ?_).symm
      · rw [Tree.tip, chain, Tree.tip]
      · rw [active.tip formed] at isTip
        subst isTip
        exact (linked t active.1 (unfailed t rfl).1).2
    · exact new notWorse

section

variable {hash : Uint256} {block : CBlockHeader} (added : tree.HeaderAdded hash block address after)
include added

theorem HeaderAdded.chosen (formed : tree.WellFormed) (fresh : address ∉ tree.blocks)
    (chosen : Chosen tree)
    : Chosen after := by
  refine chosen.grown formed added.chainActive ?_ (fun p => added.path_of_mem formed fresh) ?_ ?_
    (fun p => added.candidates ▸ id) (fun p => added.candidates ▸ .inl) ?_
  · intro p mem
    rw [added.blocks]
    exact List.mem_cons_of_mem _ mem
  · intro p mem
    rw [added.index_of_mem fresh mem]
  · intro p mem isLinked
    rw [linked, rank, added.index_of_mem fresh mem]
    exact ⟨isLinked, rfl⟩
  · intro p mem isLinked
    obtain ⟨old, -, before⟩ := added.old_of_linked fresh mem isLinked
    exact .inl ⟨old, before⟩

/-- A header with a positive proof of work keeps the invariant. -/
theorem HeaderAdded.sound (fresh : address ∉ tree.blocks) (proof : 0 < Pow.proofValue block.nBits)
    (fits : ∀ q, tree.find block.hashPrevBlock = some q
      → (tree.index q).nChainWork + Pow.proofValue block.nBits < 2 ^ 256) (sound : Sound tree)
    : Sound after := by
  have formed := sound.formed
  refine ⟨⟨added.wellFormed formed fresh, added.linking formed fresh sound.linking,
    added.skips formed fresh sound.skips, ?_, ?_⟩, added.chosen formed fresh sound.toChosen, ?_, ?_⟩
  · intro p mem data
    obtain ⟨old, same, data⟩ := added.old_of_data fresh mem data
    rw [same]
    exact sound.content p old data
  · intro p mem q child
    rcases added.block_cases fresh mem with rfl | ⟨old, same⟩
    · rw [added.pprev] at child
      have known := fits q child
      rw [added.index_of_mem fresh (mem_blocks_of_find child), added.entry, child]
      change _ < ((tree.index q).nChainWork + Pow.proofValue block.nBits) % 2 ^ 256
      rw [Nat.mod_eq_of_lt known]
      exact Nat.lt_add_of_pos_right proof
    · rw [same] at child ⊢
      rw [added.index_of_mem fresh (formed.closed p q old child)]
      exact sound.work p old q child
  · intro p mem
    rcases added.block_cases fresh mem with rfl | ⟨old, same⟩
    · rw [added.entry]
      exact Nat.le_refl _
    · rw [same]
      exact sound.valid p old
  · intro p mem data
    obtain ⟨old, same, data⟩ := added.old_of_data fresh mem data
    rw [same]
    exact sound.received p old data

end

/-- Linking a block makes it a candidate if it is as good as the tip. -/
theorem LinkStep.chosen (step : LinkStep tree p after) (formed : tree.WellFormed)
    (mem : p ∈ tree.blocks) (notLinked : tree.linked p = false)
    (nonzero : tree.txBefore p + (tree.index p).nTx ≠ 0) (chosen : Chosen tree)
    : Chosen after := by
  have same := step.sameBlocks
  have linkedIff := step.linked_iff nonzero
  refine chosen.grown formed step.chainActive (fun q inside => same.blocks ▸ inside)
    (fun q _ => same.path q) ?_ ?_ (fun q before => (step.candidates q).mpr (.inl before)) ?_ ?_
  · intro q _
    rw [same.field (·.nStatus)]
  · intro q _ isLinked
    have ne : q ≠ p := by
      rintro rfl
      rw [isLinked] at notLinked
      cases notLinked
    rw [rank, step.other q ne]
    exact ⟨(linkedIff q).mpr (.inr isLinked), rfl⟩
  · intro q candidate
    rcases (step.candidates q).mp candidate with before | ⟨rfl, -⟩
    · exact .inl before
    · exact .inr ⟨same.blocks ▸ mem, (linkedIff q).mpr (.inl rfl)⟩
  · intro q inside isLinked
    rcases (linkedIff q).mp isLinked with rfl | before
    · exact .inr fun notWorse => (step.candidates q).mpr (.inr ⟨rfl, notWorse⟩)
    · exact .inl ⟨same.blocks ▸ inside, before⟩

section Store

variable (block : CBlock)

theorem storeBlock_failed (q : Pointer)
    : ((tree.storeBlock block p).index q).nStatus.failed = (tree.index q).nStatus.failed :=
  storeBlock_field block (fun entry => entry.nStatus.failed) q fun _ =>
    BlockStatus.failed_raiseValidity _ _

/-- A received block is at least as valid as before. -/
theorem storeBlock_level (q : Pointer)
    : (tree.index q).nStatus.valid.level
      ≤ ((tree.storeBlock block p).index q).nStatus.valid.level := by
  by_cases same : q = p
  · subst same
    rw [storeBlock, index_modify_self]
    exact BlockStatus.valid_le_raiseValidity { (tree.index q).nStatus with haveData := true }
      .transactions
  · rw [storeBlock_index_ne block same]

theorem storeBlock_chosen (formed : tree.WellFormed) (linking : tree.Linking [])
    (mem : p ∈ tree.blocks) (noData : tree.hasData p = false) (chosen : Chosen tree)
    : Chosen (tree.storeBlock block p) := by
  have linkedEq := storeBlock_linked block linking mem noData
  refine chosen.grown formed rfl (fun _ => id) (fun q _ => storeBlock_path block q)
    (fun q _ => storeBlock_failed block q) (fun q _ isLinked => ?_) (fun _ => id) (fun _ => .inl)
    (fun q inside isLinked => .inl ⟨inside, linkedEq q ▸ isLinked⟩)
  exact ⟨(linkedEq q).trans isLinked, rank_congr (storeBlock_field block (·.nChainWork) q)
    (storeBlock_field block (·.nSequenceId) q)⟩

theorem storeBlock_countable (base : Base tree) (nonempty : block.vtx ≠ [])
    (length : block.vtx.length < 2 ^ 32) (small : ∀ q ∈ tree.blocks, ((tree.path q).map fun r =>
      ((tree.storeBlock block p).index r).nTx.toNat).sum < 2 ^ 32)
    : (tree.storeBlock block p).Countable := by
  have content : ∀ q ∈ tree.blocks, (tree.storeBlock block p).hasData q = true
      → ((tree.storeBlock block p).index q).nTx ≠ 0
        ∧ ∃ value, ((tree.storeBlock block p).index q).nSproutValue = some value := by
    intro q inside data
    by_cases same : q = p
    · subst same
      rw [storeBlock, index_modify_self]
      refine ⟨fun zero => nonempty ?_, _, rfl⟩
      have number : (UInt32.ofNat block.vtx.length).toNat = 0 := congrArg UInt32.toNat zero
      rw [UInt32.toNat_ofNat_of_lt' length] at number
      exact List.length_eq_zero_iff.mp number
    · rw [hasData, storeBlock_index_ne block same] at data
      rw [storeBlock_index_ne block same]
      exact base.content q inside data
  refine ⟨fun q inside data => (content q inside data).1,
    fun q inside data => (content q inside data).2, fun q inside => ?_⟩
  rw [storeBlock_path]
  exact small q inside

end Store

/-- No chain has more transactions than 32 bits can count. -/
def Small (tree : Tree) : Prop :=
  ∀ p ∈ tree.blocks, ((tree.path p).map fun q => (tree.index q).nTx.toNat).sum < 2 ^ 32

/-- Receiving a block keeps the invariant, unless its parent has failed and is not linked. -/
theorem receivedBlockTransactions_sound {checkpoint block} (sound : Sound tree)
    (mem : p ∈ tree.blocks) (noData : tree.hasData p = false)
    (notFailed : (tree.index p).nStatus.failed = false) (nonempty : block.vtx ≠ [])
    (length : block.vtx.length < 2 ^ 32)
    (parent : ∀ q, (tree.index p).pprev = some q → tree.linked q = false
      → (tree.index q).nStatus.failed = false)
    (run : tree.receivedBlockTransactions checkpoint block p = .ok after) (small : Small after)
    : Sound after := by
  have formed := sound.formed
  have listed : ∀ r q, (r, q) ∈ tree.mapBlocksUnlinked → q ∈ tree.blocks :=
    fun r q pair => (sound.linking.unlinked r q pair).1
  have same := (receivedBlockTransactions_shape block formed mem listed run).same
  have countable : (tree.storeBlock block p).Countable := by
    refine storeBlock_countable block sound.toBase nonempty length fun q inside => ?_
    have bound := small q (same.blocks.symm ▸ inside)
    rw [same.path, storeBlock_path] at bound
    simpa only [same.field (·.nTx)] using bound
  have parentValid : ∀ q, (tree.index p).pprev = some q → tree.linked q = false
      → (tree.index q).nStatus.isValid .tree = true := by
    intro q child notLinked
    rw [BlockStatus.isValid, parent q child notLinked]
    exact decide_eq_true (sound.valid q (formed.closed p q mem child))
  have round := receivedBlockTransactions_round block sound.linking formed countable mem noData
    parentValid run
  have chosen : Chosen after := by
    have stored := storeBlock_chosen block formed sound.linking mem noData sound.toChosen
    rcases receivedBlockTransactions_cases block run with
      ⟨ready, loop⟩ | ⟨q, -, -, ⟨-, rfl⟩ | ⟨-, rfl⟩⟩
    · rw [storeBlock_parentLinked block sound.linking mem noData] at ready
      have queued := storeBlock_linking block sound.linking mem noData (.inl ⟨rfl, rfl, ready⟩)
      rw [List.append_nil] at queued
      have start : Round (tree.storeBlock block p) [p] (tree.storeBlock block p) :=
        ⟨queued.shape (storeBlock_wellFormed block formed mem) (.refl _), queued, countable, rfl⟩
      have both : Round (tree.storeBlock block p) [] after ∧ Chosen after := by
        refine linkLoop_ok (P := fun queue tree => Round _ queue tree ∧ Chosen tree) loop
          (by rw [Nat.add_comm]; rfl) ⟨start, stored⟩ ?_
        rintro q queue middle next ⟨round, chosen⟩ step
        obtain ⟨inside, -, notLinked, -⟩ := round.linking.ready q List.mem_cons_self
        have kept := step.chosen round.formed inside notLinked
          (round.linking.nChainTx_ne_zero round.formed round.countable List.mem_cons_self) chosen
        exact ⟨round.step step, kept.active, kept.candidates, kept.complete⟩
      exact both.2
    · exact ⟨stored.active, stored.candidates, stored.complete⟩
    · exact stored
  have status : ∀ q, (after.index q).nStatus = ((tree.storeBlock block p).index q).nStatus :=
    same.field (·.nStatus)
  have content := same.countable countable
  have static {β : Type} (f : CBlockIndex → β)
      (later : ∀ entry, f entry.stored = f entry := by intro; rfl)
      (free : ∀ entry, f (entry.received block) = f entry := by intro; rfl)
      (q : Pointer)
      : f (after.index q) = f (tree.index q) :=
    (same.field f q later).trans (storeBlock_field block f q free)
  have paths : ∀ q, after.path q = tree.path q := fun q =>
    (same.path q).trans (storeBlock_path block q)
  refine ⟨⟨round.formed, round.linking, ?_, ?_, ?_⟩, chosen, ?_, ?_⟩
  · intro q skip
    rw [paths, static pskip, static nHeight, static nHeight]
    exact sound.skips q skip
  · exact fun q inside data => ⟨content.tx q inside data, content.sprout q inside data⟩
  · intro q inside r
    rw [static pprev, static nChainWork, static nChainWork]
    exact sound.work q (same.blocks ▸ inside) r
  · intro q inside
    rw [status]
    exact (sound.valid q (same.blocks ▸ inside)).trans (storeBlock_level block q)
  intro q inside data
  rw [same.hasData] at data
  rw [status]
  by_cases self : q = p
  · subst self
    have stored : { (tree.index q).nStatus with haveData := true }.failed = false := notFailed
    rw [storeBlock, index_modify_self]
    exact (BlockStatus.level_le_raiseValidity .transactions stored).1
  · rw [hasData, storeBlock_index_ne block self] at data
    rw [storeBlock_index_ne block self]
    exact sound.received q (same.blocks ▸ inside) data

end Tree

end Resistance.BlockTree

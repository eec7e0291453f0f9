import Resistance.BlockTree.Connecting

/-! `FindMostWorkChain` and `ActivateBestChainStep` keep the invariant of the block tree, when
every block that is connected is valid.
-/

namespace Resistance.BlockTree

open Lib.Forest Lib.Checks List

namespace Tree

variable {start tree after : Tree} {p q goal : Pointer} {fuel : Nat} {tip : Option Pointer}

theorem Base.linked_path (base : Base tree) (mem : p ∈ tree.blocks)
    (isLinked : tree.linked p = true) (ancestor : q ∈ tree.path p)
    : tree.linked q = true := by
  have chain := (base.linking.linked_iff base.formed mem).mp isLinked
  refine (base.linking.linked_iff base.formed (base.formed.path_mem mem ancestor)).mpr ?_
  exact fun r below => chain r (base.formed.graded.ancestor_trans ancestor below)

/-- No data is missing below a candidate. -/
theorem Sound.candidate_data (sound : Sound tree) (candidate : p ∈ tree.setBlockIndexCandidates)
    (ancestor : q ∈ tree.path p)
    : tree.hasData q = true := by
  obtain ⟨mem, isLinked⟩ := sound.candidates p candidate
  exact (sound.linking.linked_iff sound.formed mem).mp isLinked q ancestor

theorem foldl_dropBlock_unlinked (fFailedChain : Bool) (dropped : List Pointer) (tree : Tree)
    : (dropped.foldl (dropBlock fFailedChain false) tree).mapBlocksUnlinked
      = tree.mapBlocksUnlinked := by
  induction dropped generalizing tree with
  | nil => rfl
  | cons p rest ih =>
    rw [foldl_cons, ih]
    cases fFailedChain <;> rfl

variable {bad : Pointer} {result : Option Pointer}

theorem dropChain_unlinked (data : tree.hasData bad = true)
    : (tree.dropChain p bad).mapBlocksUnlinked = tree.mapBlocksUnlinked := by
  have present : (!(tree.index bad).nStatus.haveData) = false := by
    rw [show (tree.index bad).nStatus.haveData = true from data]
    rfl
  rw [dropChain]
  simp only [present]
  refine (foldl_dropBlock_unlinked _ _ _).trans ?_
  split <;> rfl

theorem findMostWorkLoop_unlinked (formed : start.WellFormed)
    (data : ∀ p ∈ start.setBlockIndexCandidates, ∀ q ∈ start.path p, start.hasData q = true)
    (linked : ∀ p ∈ start.setBlockIndexCandidates, ∀ q ∈ start.path p,
      start.linked q = true ∨ (start.index q).nHeight = 0) (search : Search start tree)
    (run : findMostWorkLoop fuel tree = .ok (result, after))
    : after.mapBlocksUnlinked = tree.mapBlocksUnlinked := by
  induction fuel generalizing tree with
  | zero => cases run
  | succ fuel ih =>
    rw [findMostWorkLoop] at run
    split at run
    next =>
      cases run
      rfl
    next p last =>
      have mem := search.candidates p (lastCandidate_some last).1
      rw [search.findUnusable (linked p mem)] at run
      cases found : tree.unusableOn (tree.path p) with
      | none =>
        rw [found] at run
        cases run
        rfl
      | some bad =>
        rw [found] at run
        have ancestor := (search.found found).1
        have present : tree.hasData bad = true := by
          rw [hasData, search.field fun entry => entry.nStatus.haveData]
          exact data p mem bad ancestor
        rw [ih (search.step formed found (dropChain_dropped tree p bad)) run,
          dropChain_unlinked present]

/-- Only blocks off the active chain are condemned. -/
theorem Condemned.off_chain (condemned : Condemned start tree p bad)
    : start.contains p = false := by
  obtain ⟨-, inactive, -, passed⟩ := unusableOn_some condemned.found
  by_cases self : p = bad
  · exact self ▸ inactive
  · exact (passed p (mem_above_self self)).1

/-- Nothing happens outside of the block index. -/
theorem Search.outside (search : Search start tree) (formed : start.WellFormed)
    (outside : p ∉ start.blocks)
    : tree.index p = start.index p := by
  rcases search.entry p with same | ⟨-, bad, condemned⟩
  · exact same
  have unused := formed.unused p outside
  have root : (start.index p).pprev = none := by rw [unused]
  have self := (unusableOn_some condemned.found).1
  rw [formed.path_root root, mem_singleton] at self
  have failed := condemned.failed
  rw [self, unused] at failed
  cases failed

/-- Where no data is missing, looking for the best chain marks blocks and erases candidates. -/
theorem Search.sameLinks (search : Search start tree) (formed : start.WellFormed)
    (unlinked : tree.mapBlocksUnlinked = start.mapBlocksUnlinked)
    : SameLinks start tree where
  mapBlockIndex := search.mapBlockIndex
  unlinked := unlinked
  entry := by
    intro p
    rcases search.entry p with same | ⟨marked, -⟩
    · rw [same]
    · rw [marked]
      rfl
  haveData := fun p => search.field (fun entry => entry.nStatus.haveData) p
  outside := fun _ outside => search.outside formed outside

theorem Sound.findMostWorkChain (sound : Sound tree)
    (run : tree.findMostWorkChain = .ok (result, after))
    : SameLinks tree after ∧ Sound after ∧ after.chainActive = tree.chainActive
      ∧ ∀ p, result = some p → p ∈ after.setBlockIndexCandidates
        ∧ after.unusableOn (after.path p) = none
        ∧ ∀ q ∈ after.setBlockIndexCandidates, after.worse p q = false := by
  have formed := sound.formed
  have linked : ∀ p ∈ tree.setBlockIndexCandidates, ∀ q ∈ tree.path p,
      tree.linked q = true ∨ (tree.index q).nHeight = 0 := by
    intro p candidate q ancestor
    obtain ⟨mem, isLinked⟩ := sound.candidates p candidate
    exact .inl (sound.linked_path mem isLinked ancestor)
  obtain ⟨_, _, returns, search, -, best⟩ :=
    findMostWorkLoop_ok formed linked (.refl tree) (Nat.lt_succ_self _)
  cases run.symm.trans returns
  have unlinked := findMostWorkLoop_unlinked formed
    (fun p candidate q => sound.candidate_data candidate) linked (.refl tree) run
  have same := search.sameLinks formed unlinked
  refine ⟨same, ⟨same.base sound.toBase, ⟨?_, ?_, ?_⟩, ?_, ?_⟩, search.chainActive, best⟩
  · obtain ⟨tip, active, unfailed⟩ := sound.active
    refine ⟨tip, same.activeIs search.chainActive active, ?_⟩
    rintro t rfl
    obtain ⟨isLinked, clean⟩ := unfailed t rfl
    rw [same.linked, same.path]
    refine ⟨isLinked, fun q ancestor => ?_⟩
    rcases search.entry q with unchanged | ⟨-, bad, condemned⟩
    · rw [unchanged]
      exact clean q ancestor
    · have onChain := (active.contains_iff formed).mpr ancestor
      rw [condemned.off_chain] at onChain
      cases onChain
  · intro p candidate
    rw [same.blocks, same.linked]
    exact sound.candidates p (search.candidates p candidate)
  · intro p mem isLinked notFailed notWorse
    by_contra erased
    rw [same.blocks] at mem
    rw [same.linked] at isLinked
    rw [same.notWorseThanTip search.chainActive] at notWorse
    have notFailedBefore := search.unmarked notFailed ▸ notFailed
    have before := sound.complete p mem isLinked notFailedBefore notWorse
    obtain ⟨bad, condemned | detached⟩ := search.erased p before erased
    · by_cases self : p = bad
      · have failed := condemned.failed
        rw [← self, notFailedBefore] at failed
        cases failed
      · have marked := condemned.marked p (mem_above_self self)
        rw [BlockStatus.failed, marked, Bool.or_true] at notFailed
        cases notFailed
    · have data := sound.candidate_data before (unusableOn_some detached.found).1
      rw [detached.missing] at data
      cases data
  · intro p
    rw [same.blocks, search.field fun entry => entry.nStatus.valid.level]
    exact sound.valid p
  · intro p
    rw [same.blocks, same.haveData, search.field fun entry => entry.nStatus.valid.level]
    exact sound.received p

theorem disconnectTip_ok (run : tree.disconnectTip = .ok after)
    : ∃ t, tree.tip = some t ∧ after = tree.setTip (tree.index t).pprev := by
  rw [disconnectTip] at run
  split at run
  next => cases run
  next t isTip =>
    cases run
    exact ⟨t, isTip, rfl⟩

/-- Blocks are disconnected down to the fork, and nothing else changes. -/
theorem disconnectTo_ok {fork} (formed : tree.WellFormed) (active : tree.ActiveIs tip)
    (below : ∀ f, fork = some f → ∃ t, tip = some t ∧ f ∈ tree.path t)
    (run : disconnectTo fork fuel tree = .ok after)
    : after.ActiveIs fork ∧ ∃ chain, after = { tree with chainActive := chain } := by
  induction fuel generalizing tree tip with
  | zero => cases run
  | succ fuel ih =>
    rw [disconnectTo, active.tip formed] at run
    split at run
    next stop =>
      cases run
      refine ⟨?_, after.chainActive, rfl⟩
      rcases stop with rfl | rfl
      · cases fork with
        | none => exact active
        | some f =>
          obtain ⟨t, absurd, -⟩ := below f rfl
          cases absurd
      · exact active
    next goes =>
      rw [not_or] at goes
      obtain ⟨middle, disconnected, rest⟩ := bind_ok.mp run
      obtain ⟨t, isTip, rfl⟩ := disconnectTip_ok disconnected
      rw [active.tip formed] at isTip
      subst isTip
      have same := sameLinks_chainActive tree (tree.setTip (tree.index t).pprev).chainActive
      have lower := active.setTip formed
        (fun p parent => formed.closed t p active.1 parent)
      have belowParent : ∀ f, fork = some f
          → ∃ parent, (tree.index t).pprev = some parent ∧ f ∈ tree.path parent := by
        rintro f rfl
        obtain ⟨_, isTip, ancestor⟩ := below f rfl
        cases isTip
        rcases formed.graded.mem_lineage.mp ancestor with rfl | ⟨parent, child, above⟩
        · exact absurd rfl goes.2
        · exact ⟨parent, child, above⟩
      obtain ⟨reached, chain, rfl⟩ := ih (same.wellFormed formed) lower belowParent rest
      exact ⟨reached, chain, rfl⟩

/-- What has changed while blocks of the chain of `goal` are connected: the statuses for the
better, and the candidates that are worse than a block that has been connected.
-/
structure Connecting (start : Tree) (goal : Pointer) (tree : Tree) (tip : Option Pointer) : Prop
    where
  same : SameLinks start tree
  failed : ∀ p, (tree.index p).nStatus.failed = (start.index p).nStatus.failed
  level : ∀ p, (start.index p).nStatus.valid.level ≤ (tree.index p).nStatus.valid.level
  active : tree.ActiveIs tip
  onPath : ∀ t, tip = some t → t ∈ start.path goal
  kept : ∀ p ∈ tree.setBlockIndexCandidates, p ∈ start.setBlockIndexCandidates
  erased : ∀ p ∈ start.setBlockIndexCandidates, p ∉ tree.setBlockIndexCandidates
    → ∃ t y, tip = some t ∧ y ∈ start.path t ∧ start.worse p y = true

/-- Connecting the next block of the chain and pruning the candidates. -/
theorem Connecting.connect (formed : start.WellFormed) (inside : goal ∈ start.blocks)
    (connecting : Connecting start goal tree tip) (next : p ∈ start.path goal)
    (child : (start.index p).pprev = tip)
    (prune : (tree.withTip p).pruneBlockIndexCandidates = .ok after)
    : Connecting start goal after (some p) := by
  have same := connecting.same
  have formedTree := same.wellFormed formed
  have mem : p ∈ tree.blocks := same.blocks ▸ formed.path_mem inside next
  obtain ⟨sameTip, active, status⟩ := withTip_ok formedTree connecting.active mem
  have sameMiddle := same.trans sameTip
  obtain ⟨t, isTip, rfl⟩ := pruneBlockIndexCandidates_ok prune
  have tipIs : t = p := by
    rw [active.tip (sameMiddle.wellFormed formed)] at isTip
    exact (Option.some_inj.mp isTip).symm
  have candidates : ∀ q, q ∈ (tree.withTip p).setBlockIndexCandidates.filter
        (fun q => !(tree.withTip p).worse q t)
      ↔ q ∈ tree.setBlockIndexCandidates ∧ start.worse q p = false := by
    intro q
    rw [mem_filter, sameMiddle.worse, tipIs, Bool.not_eq_true']
    rfl
  refine ⟨sameMiddle.trans (sameLinks_candidates _ _),
    fun q => (status q).1.trans (connecting.failed q),
    fun q => (connecting.level q).trans (status q).2, ⟨active.1, active.2⟩, ?_, ?_, ?_⟩
  · rintro _ ⟨⟩
    exact next
  · intro q candidate
    exact connecting.kept q ((candidates q).mp candidate).1
  intro q before erased
  by_cases still : q ∈ tree.setBlockIndexCandidates
  · refine ⟨p, p, rfl, formed.graded.self_mem p, ?_⟩
    by_contra notWorse
    exact erased ((candidates q).mpr ⟨still, Bool.not_eq_true _ ▸ notWorse⟩)
  · obtain ⟨u, y, rfl, ancestor, worse⟩ := connecting.erased q before still
    exact ⟨p, y, rfl, formed.graded.mem_of_child child ancestor, worse⟩

theorem connecting_rule (verdict : Pointer → Verdict) (formed : start.WellFormed)
    (inside : goal ∈ start.blocks)
    : ConnectRule verdict start goal (Connecting start goal) where
  same := fun _ _ connecting => connecting.same
  active := fun _ _ connecting => connecting.active
  onPath := fun _ t connecting => connecting.onPath t rfl
  connect := fun _ _ _ _ connecting next child _ prune =>
    connecting.connect formed inside next child prune

/-- Where work grows along chains, a block is not worse than its ancestors. -/
theorem WellFormed.rank_le (formed : tree.WellFormed)
    (work : ∀ p ∈ tree.blocks, ∀ q, (tree.index p).pprev = some q
      → (tree.index q).nChainWork < (tree.index p).nChainWork) (mem : p ∈ tree.blocks)
    (ancestor : q ∈ tree.path p)
    : tree.rank q ≤ tree.rank p := by
  induction p using formed.graded.induction with
  | step p ih =>
    rcases formed.graded.mem_lineage.mp ancestor with rfl | ⟨parent, child, above⟩
    · exact le_refl _
    · have upper := ih parent child (formed.closed p parent mem child) above
      refine upper.trans (le_of_lt ?_)
      exact rank_lt_iff.mpr (.inl (work p mem parent child))

/-- An ancestor is met before the active chain, or is below a block of the active chain. -/
theorem mem_path_cases (formed : tree.WellFormed) (ancestor : q ∈ tree.path p)
    : (q ∈ (tree.path p).takeWhile fun r => !tree.contains r)
      ∨ ∃ c ∈ tree.path p, tree.contains c = true ∧ q ∈ tree.path c := by
  induction p using formed.graded.induction with
  | step p ih =>
    by_cases active : tree.contains p = true
    · exact .inr ⟨p, formed.graded.self_mem p, active, ancestor⟩
    rcases formed.graded.mem_lineage.mp ancestor with rfl | ⟨parent, child, above⟩
    · left
      obtain ⟨rest, path⟩ := tree.path_cons q
      simp [path, active]
    rw [formed.path_child child]
    rcases ih parent child above with before | ⟨c, inPath, onChain, below⟩
    · left
      rw [takeWhile_cons_of_pos (by simpa using active)]
      exact mem_cons_of_mem p before
    · exact .inr ⟨c, mem_cons_of_mem p inPath, onChain, below⟩

/-- The chain of a usable block has no marks of failure, where the active chain has none. -/
theorem unfailed_path (formed : tree.WellFormed) (active : tree.ActiveIs tip)
    (clean : ∀ t, tip = some t → ∀ q ∈ tree.path t, (tree.index q).nStatus.failed = false)
    (usable : tree.unusableOn (tree.path p) = none) (ancestor : q ∈ tree.path p)
    : (tree.index q).nStatus.failed = false := by
  rcases mem_path_cases formed ancestor with before | ⟨c, -, onChain, below⟩
  · rw [unusableOn, find?_eq_none] at usable
    have good := usable q before
    rw [unusable, Bool.or_eq_true, not_or, Bool.not_eq_true] at good
    exact good.1
  · obtain ⟨t, isTip, inChain⟩ := active.tip_of_contains formed onChain
    exact clean t isTip q (formed.graded.ancestor_trans inChain below)

theorem Sound.unfailed_path (sound : Sound tree) (usable : tree.unusableOn (tree.path p) = none)
    (ancestor : q ∈ tree.path p)
    : (tree.index q).nStatus.failed = false := by
  obtain ⟨tip, active, unfailed⟩ := sound.active
  exact Tree.unfailed_path sound.formed active (fun t isTip => (unfailed t isTip).2) usable ancestor

/-- The invariant holds again when the tip is not worse than before. -/
theorem Connecting.sound {x} (sound : Sound start)
    (candidate : goal ∈ start.setBlockIndexCandidates)
    (usable : start.unusableOn (start.path goal) = none)
    (connecting : Connecting start goal tree (some x))
    (notWorse : ∀ t, start.tip = some t → start.rank t ≤ start.rank x)
    : Sound tree := by
  have formed := sound.formed
  have same := connecting.same
  obtain ⟨inside, isLinked⟩ := sound.candidates goal candidate
  have onPath := connecting.onPath x rfl
  have mem := formed.path_mem inside onPath
  refine same.sound sound connecting.level ⟨⟨some x, connecting.active, ?_⟩, ?_, ?_⟩
  · rintro _ ⟨⟩
    rw [same.linked, same.path]
    refine ⟨sound.linked_path inside isLinked onPath, fun q ancestor => ?_⟩
    rw [connecting.failed]
    exact sound.unfailed_path usable (formed.graded.ancestor_trans onPath ancestor)
  · intro p still
    rw [same.blocks, same.linked]
    exact sound.candidates p (connecting.kept p still)
  intro p known linkedNow notFailed asGood
  rw [same.blocks] at known
  rw [same.linked] at linkedNow
  rw [connecting.failed] at notFailed
  have tipNow := connecting.active.tip (same.wellFormed formed)
  have atLeast := notWorseThanTip_iff.mp asGood x tipNow
  rw [same.rank, same.rank] at atLeast
  have before : p ∈ start.setBlockIndexCandidates :=
    sound.complete p known linkedNow notFailed
      (notWorseThanTip_iff.mpr fun t isTip => (notWorse t isTip).trans atLeast)
  by_contra erased
  obtain ⟨_, y, ⟨⟩, ancestor, worse⟩ := connecting.erased p before erased
  have below := (worse_iff.mp worse).trans_le (formed.rank_le sound.work mem ancestor)
  exact absurd atLeast (not_le_of_gt below)

theorem Sound.tip_candidate (sound : Sound tree) {t} (isTip : tree.tip = some t)
    : t ∈ tree.setBlockIndexCandidates := by
  obtain ⟨tip, active, unfailed⟩ := sound.active
  rw [active.tip sound.formed] at isTip
  subst isTip
  obtain ⟨isLinked, clean⟩ := unfailed t rfl
  refine sound.complete t active.1 isLinked (clean t (sound.formed.graded.self_mem t)) ?_
  refine notWorseThanTip_iff.mpr fun s isTip => ?_
  cases (active.tip sound.formed).symm.trans isTip
  exact le_refl _

/-- How many blocks are disconnected. -/
def reorgLength (tree : Tree) (goal : Pointer) : Int :=
  if tree.tip = none then 0 else tree.heightOf tree.tip - tree.heightOf (tree.findFork goal)

/-- A step is too long, or it disconnects to the fork and connects from there. -/
theorem activateBestChainStep_cases {verdict maxReorgLength result} (formed : tree.WellFormed)
    (skips : tree.Skips) (active : tree.ActiveIs tip)
    (run : tree.activateBestChainStep verdict maxReorgLength goal = .ok (result, after))
    : result = .reorgTooLong ∧ after = tree ∧ maxReorgLength < tree.reorgLength goal
      ∨ tree.reorgLength goal ≤ maxReorgLength ∧ ∃ progress chain fuel,
        result = (if progress = .systemError then .systemError else .done)
        ∧ { tree with chainActive := chain }.ActiveIs (tree.findFork goal)
        ∧ connectLoop verdict tip goal fuel (tree.heightOf (tree.findFork goal))
            { tree with chainActive := chain } = .ok (progress, after) := by
  obtain ⟨_, -, rest⟩ := bind_ok.mp run
  change (if tree.reorgLength goal > maxReorgLength then _ else _) = _ at rest
  split at rest
  next tooLong =>
    cases rest
    exact .inl ⟨rfl, rfl, tooLong⟩
  next short =>
    obtain ⟨middle, disconnected, rest⟩ := bind_ok.mp rest
    obtain ⟨⟨progress, last⟩, connected, isResult⟩ := bind_ok.mp rest
    cases isResult
    obtain ⟨atFork, chain, rfl⟩ := disconnectTo_ok formed active
      (fun f found => (findFork_below formed skips active found).2) disconnected
    rw [active.tip formed] at connected
    exact .inr ⟨not_lt.mp short, progress, chain, _, rfl, atFork, connected⟩

/-- From the fork on. -/
theorem connecting_start (formed : tree.WellFormed) (skips : tree.Skips)
    (active : tree.ActiveIs tip) {chain}
    (atFork : { tree with chainActive := chain }.ActiveIs (tree.findFork goal))
    : Connecting tree goal { tree with chainActive := chain } (tree.findFork goal) where
  same := sameLinks_chainActive tree chain
  failed := fun _ => rfl
  level := fun _ => Nat.le_refl _
  active := atFork
  onPath := fun _ found => (findFork_below formed skips active found).1
  kept := fun _ => id
  erased := fun _ before erased => absurd before erased

theorem Sound.activateBestChainStep {maxReorgLength result} (sound : Sound tree)
    (candidate : goal ∈ tree.setBlockIndexCandidates)
    (usable : tree.unusableOn (tree.path goal) = none)
    (best : ∀ q ∈ tree.setBlockIndexCandidates, tree.worse goal q = false)
    (run : tree.activateBestChainStep (fun _ => .valid) maxReorgLength goal = .ok (result, after))
    : Sound after := by
  have formed := sound.formed
  obtain ⟨inside, -⟩ := sound.candidates goal candidate
  obtain ⟨tip, active, -⟩ := sound.active
  rcases activateBestChainStep_cases formed sound.skips active run with
    ⟨-, rfl, -⟩ | ⟨-, progress, chain, fuel, -, atFork, connected⟩
  · exact sound
  cases (connecting_rule _ formed inside).connectLoop formed sound.skips
    (connecting_start formed sound.skips active atFork) connected with
  | unfinished reached =>
    refine reached.sound sound candidate usable fun t isTip => ?_
    exact worse_eq_false.mp (best t (sound.tip_candidate isTip))
  | better reached better =>
    refine reached.sound sound candidate usable fun t isTip => le_of_lt ?_
    have tipNow := reached.active.tip (reached.same.wellFormed formed)
    rw [← active.tip formed] at better
    simp only [betterThan, isTip, tipNow, decide_eq_true_eq] at better
    rw [reached.same.field (·.nChainWork), reached.same.field (·.nChainWork)] at better
    exact rank_lt_iff.mpr (.inl better)
  | invalid _ _ _ isInvalid => cases isInvalid
  | systemError _ isError => cases isError

/-- A round of `ActivateBestChain` keeps the invariant. -/
theorem Sound.activateBestChainRound {maxReorgLength result} (sound : Sound tree)
    (run : tree.activateBestChainRound (fun _ => .valid) maxReorgLength = .ok (result, after))
    : Sound after := by
  obtain ⟨⟨found, searched⟩, search, rest⟩ := bind_ok.mp run
  obtain ⟨-, kept, -, best⟩ := sound.findMostWorkChain search
  cases found with
  | none =>
    cases rest
    exact kept
  | some goal =>
    obtain ⟨candidate, usable, greatest⟩ := best goal rfl
    by_cases isTip : searched.tip = some goal
    · simp only [if_pos isTip] at rest
      cases rest
      exact kept
    · simp only [if_neg isTip] at rest
      obtain ⟨⟨step, last⟩, stepped, result⟩ := bind_ok.mp rest
      cases result
      exact kept.activateBestChainStep candidate usable greatest stepped

end Tree

end Resistance.BlockTree

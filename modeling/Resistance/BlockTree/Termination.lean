import Resistance.BlockTree.ActivateBestChain

/-! `ActivateBestChain` ends, unless it comes to a block that `ConnectBlock` finds invalid but
possibly corrupted: such a block is neither marked nor taken out of the candidates, and the same
chain is selected again.
-/

namespace Resistance.BlockTree

open List Lib.Forest Lib.Checks

namespace Tree

/-- The states between the rounds. -/
inductive Reaches (verdict : Pointer → Verdict) (maxReorgLength : Int) : Tree → Tree → Prop where
  | refl (tree : Tree) : Reaches verdict maxReorgLength tree tree
  | round {tree middle after : Tree}
      (once : tree.activateOnce verdict maxReorgLength = .ok (.running, middle))
      (rest : Reaches verdict maxReorgLength middle after)
      : Reaches verdict maxReorgLength tree after

/-- The loop has ended after some number of rounds: it has returned, or an assertion has
failed.
-/
def Ends (verdict : Pointer → Verdict) (maxReorgLength : Int) (tree : Tree) : Prop :=
  ∃ rounds, ∀ after,
    tree.activateBestChain verdict maxReorgLength rounds ≠ .ok (.running, after)

/-- The next block of the selected chain is invalid but possibly corrupted. -/
def Blocked (verdict : Pointer → Verdict) (tree : Tree) : Prop :=
  ∃ goal searched x, tree.findMostWorkChain = .ok (some goal, searched)
    ∧ x ∈ searched.path goal ∧ (searched.index x).pprev = searched.tip
    ∧ verdict x = .invalid true

/-- A tree of known blocks, of which one chain is active. -/
structure Rooted (tree : Tree) : Prop where
  formed : tree.WellFormed
  skips : tree.Skips
  active : ∃ tip, tree.ActiveIs tip
  known : ∀ p ∈ tree.setBlockIndexCandidates, p ∈ tree.blocks

/-- The work grows along every chain. -/
structure Grown (tree : Tree) : Prop extends Rooted tree where
  work : ∀ p ∈ tree.blocks, ∀ q, (tree.index p).pprev = some q
    → (tree.index q).nChainWork < (tree.index p).nChainWork

variable {verdict : Pointer → Verdict} {maxReorgLength : Int} {start tree after : Tree}
  {goal p q : Pointer} {tip : Option Pointer}

/-! Selecting. -/

variable {result : Option Pointer} {fuel : Nat} {middle state : Tree} {x : Pointer}

/-- A search that returns has passed its assertions. -/
theorem findUnusable_of_ok {path} (run : tree.findUnusable path = .ok result)
    : result = tree.unusableOn path := by
  induction path with
  | nil =>
    cases run
    rfl
  | cons p rest ih =>
    rw [findUnusable] at run
    split at run
    next onChain =>
      cases run
      simp [unusableOn, onChain]
    next offChain =>
      obtain ⟨_, -, run⟩ := bind_ok.mp run
      rw [unusableOn, takeWhile_cons_of_pos (by simpa using offChain)]
      split at run
      next bad =>
        cases run
        rw [find?_cons_of_pos bad]
      next good =>
        rw [find?_cons_of_neg good]
        exact ih run

/-- Nothing is found unusable exactly if all blocks off the active chain are usable. -/
theorem findUnusable_none {path}
    : tree.findUnusable path = .ok none
      ↔ ∀ q ∈ path.takeWhile fun r => !tree.contains r,
        ((tree.index q).nChainTx ≠ 0 ∨ (tree.index q).nHeight = 0) ∧ tree.unusable q = false := by
  induction path with
  | nil => exact iff_of_true rfl nofun
  | cons p rest ih =>
    rw [findUnusable]
    split
    next onChain => simp [onChain]
    next offChain =>
      rw [takeWhile_cons_of_pos (by simpa using offChain), forall_mem_cons, ← ih, bind_ok]
      simp only [assertThat_ok]
      split
      next bad => simp [bad]
      next good => simp [good]

/-- What the search for the best chain returns. -/
theorem findMostWorkLoop_of_ok (formed : start.WellFormed) (search : Search start tree)
    (run : findMostWorkLoop fuel tree = .ok (result, after))
    : Search start after ∧ ∀ p, result = some p
      → after.lastCandidate after.setBlockIndexCandidates = some p
        ∧ after.findUnusable (after.path p) = .ok none := by
  induction fuel generalizing tree with
  | zero => cases run
  | succ fuel ih =>
    rw [findMostWorkLoop] at run
    split at run
    next =>
      cases run
      exact ⟨search, by simp⟩
    next p last =>
      obtain ⟨found, isFound, run⟩ := bind_ok.mp run
      cases found with
      | none =>
        cases run
        refine ⟨search, ?_⟩
        rintro _ ⟨⟩
        exact ⟨last, isFound⟩
      | some bad =>
        have step := search.step formed (findUnusable_of_ok isFound).symm
          (dropChain_dropped tree p bad)
        exact ih step run

/-- The greatest candidate is selected again and again, while it is usable. -/
theorem findMostWorkChain_again (last : tree.lastCandidate tree.setBlockIndexCandidates = some goal)
    (usable : tree.findUnusable (tree.path goal) = .ok none)
    : tree.findMostWorkChain = .ok (some goal, tree) := by
  rw [findMostWorkChain, findMostWorkLoop]
  simp only [last, usable]
  rfl

theorem lastCandidate_eq {candidates} (mem : goal ∈ candidates)
    (greatest : ∀ q ∈ candidates, tree.worse goal q = false)
    : tree.lastCandidate candidates = some goal := by
  cases last : tree.lastCandidate candidates with
  | none =>
    rw [lastCandidate_none.mp last] at mem
    cases mem
  | some p =>
    obtain ⟨inside, best⟩ := lastCandidate_some last
    have below := worse_eq_false.mp (best goal mem)
    have above := worse_eq_false.mp (greatest p inside)
    rw [tree.rank_injective (le_antisymm below above)]

/-! Grown trees. -/

/-- The same blocks, with the same parents and the same work. -/
structure SameWork (tree after : Tree) : Prop where
  blocks : after.blocks = tree.blocks
  parent : ∀ p, (after.index p).pprev = (tree.index p).pprev
  work : ∀ p, (after.index p).nChainWork = (tree.index p).nChainWork

theorem SameWork.trans (first : SameWork tree middle) (second : SameWork middle after)
    : SameWork tree after where
  blocks := second.blocks.trans first.blocks
  parent := fun p => (second.parent p).trans (first.parent p)
  work := fun p => (second.work p).trans (first.work p)

theorem SameWork.grown (same : SameWork tree after) (grown : Grown tree) (rooted : Rooted after)
    : Grown after where
  toRooted := rooted
  work := by
    intro p
    rw [same.blocks, same.parent, same.work]
    intro mem q child
    rw [same.work]
    exact grown.work p mem q child

theorem Search.sameWork (search : Search start tree) : SameWork start tree where
  blocks := by rw [Tree.blocks, search.mapBlockIndex, Tree.blocks]
  parent := search.field (·.pprev)
  work := search.field (·.nChainWork)

theorem SameLinks.sameWork (same : SameLinks tree after) : SameWork tree after where
  blocks := same.blocks
  parent := same.field (·.pprev)
  work := same.field (·.nChainWork)

theorem Search.rooted (search : Search start tree) (rooted : Rooted start) : Rooted tree := by
  have blocks := search.sameWork.blocks
  have chain : ∀ p, tree.chainOf p = start.chainOf p := fun p => by
    rw [chainOf, search.path, chainOf]
  constructor
  · exact rooted.formed.of_links search.mapBlockIndex
      (fun p => ⟨search.field (·.pprev) p, search.field (·.nHeight) p, search.field (·.hash) p⟩)
      fun p outside => (search.outside rooted.formed outside).trans (rooted.formed.unused p outside)
  · intro p skip
    rw [search.path, search.field (·.pskip), search.field (·.nHeight), search.field (·.nHeight)]
    exact rooted.skips p skip
  · obtain ⟨tip, active⟩ := rooted.active
    refine ⟨tip, ?_⟩
    cases tip with
    | none => exact search.chainActive.trans active
    | some t =>
      constructor
      · rw [blocks]
        exact active.1
      · rw [search.chainActive, chain]
        exact active.2
  · intro p candidate
    rw [blocks]
    exact rooted.known p (search.candidates p candidate)

theorem Search.grown (search : Search start tree) (grown : Grown start) : Grown tree :=
  search.sameWork.grown grown (search.rooted grown.toRooted)

theorem SameLinks.rooted (same : SameLinks tree after) (rooted : Rooted tree)
    (active : after.ActiveIs tip)
    (kept : ∀ p ∈ after.setBlockIndexCandidates, p ∈ tree.setBlockIndexCandidates)
    : Rooted after where
  formed := same.wellFormed rooted.formed
  skips := same.skips rooted.skips
  active := ⟨tip, active⟩
  known := by
    intro p candidate
    rw [same.blocks]
    exact rooted.known p (kept p candidate)

/-! A blocked tree. -/

/-- The first block to connect is the child of the tip on the way to the goal. -/
theorem connectLoop_first (grown : Grown tree) (active : tree.ActiveIs tip)
    (below : ∀ t, tip = some t → t ∈ tree.path goal) (onPath : x ∈ tree.path goal)
    (next : (tree.index x).pprev = tip) (corrupted : verdict x = .invalid true) {oldTip}
    : connectLoop verdict oldTip goal (fuel + 1) (tree.heightOf tip) tree
      = .ok (.invalidFound, tree) := by
  have formed := grown.formed
  have level : ((tree.index x).nHeight : Int) = tree.heightOf tip + 1 := by
    cases tip with
    | none => rw [formed.graded.root next]; rfl
    | some t =>
      have child := formed.graded.child next
      simp only [heightOf, Option.map_some, Option.getD_some]
      omega
  have top : (tree.index x).nHeight ≤ (tree.index goal).nHeight := formed.graded.height_le onPath
  rw [connectLoop]
  simp only
  split
  next reached => omega
  next notYet =>
    generalize isTarget : min (tree.heightOf tip + 32) ((tree.index goal).nHeight : Int) = target
    obtain ⟨last, -, -, -, inLast, isLast, first, inPath⟩ :=
      batch_ok formed grown.skips (.refl tree) below notYet isTarget
    obtain ⟨ascends, -⟩ := blocksAbove_ascends formed inLast
    rw [isLast] at first inPath ⊢
    cases batch : (tree.blocksAbove (some last) (tree.heightOf tip)).reverse with
    | nil =>
      rw [reverse_eq_nil_iff.mp batch] at first
      cases first
    | cons y rest =>
      rw [batch] at ascends
      have isFirst : y = x := by
        have yOnPath := inPath y (mem_reverse.mp (batch ▸ mem_cons_self))
        refine formed.graded.eq_of_height_eq yOnPath onPath ?_
        cases tip with
        | none => exact (formed.graded.root ascends.1).trans (formed.graded.root next).symm
        | some t => exact (formed.graded.child ascends.1).trans (formed.graded.child next).symm
      subst isFirst
      have connects : tree.connectTip verdict y = .ok (.invalid true, tree) := by
        rw [connectTip, active.tip formed, assertThat, throwIf, if_neg (not_not.mpr next),
          corrupted]
        rfl
      rw [connectBlocks, connects]
      rfl

/-- A round in a blocked tree changes nothing but the candidates it drops, and the tree is
blocked again.
-/
theorem Blocked.once (blocked : Blocked verdict tree) (grown : Grown tree)
    (pos : 0 < maxReorgLength)
    : ∃ after, tree.activateOnce verdict maxReorgLength = .ok (.running, after)
      ∧ Blocked verdict after ∧ Grown after := by
  obtain ⟨goal, searched, x, found, onPath, next, corrupted⟩ := blocked
  obtain ⟨search, selected⟩ := findMostWorkLoop_of_ok grown.formed (.refl tree) found
  obtain ⟨last, usable⟩ := selected goal rfl
  have again := findMostWorkChain_again last usable
  have grownNow := search.grown grown
  have formed := grownNow.formed
  obtain ⟨tip, active⟩ := grownNow.active
  have isTip := active.tip formed
  rw [isTip] at next
  have below : ∀ t, tip = some t → t ∈ searched.path goal := by
    rintro t rfl
    exact formed.graded.ancestor_trans onPath
      (formed.graded.mem_of_child next (formed.graded.self_mem t))
  have notGoal : tip ≠ some goal := by
    rintro rfl
    have child := formed.graded.child next
    have high := formed.graded.height_le onPath
    omega
  have fork := findFork_of_tip formed grownNow.skips active below
  refine ⟨searched, ?_, ⟨goal, searched, x, again, onPath, next.trans isTip.symm, corrupted⟩,
    grownNow⟩
  have step : searched.activateBestChainStep verdict maxReorgLength goal
      = .ok (.done, searched) := by
    have stays : disconnectTo tip (searched.chainActive.length + 1) searched = .ok searched := by
      rw [disconnectTo, isTip, if_pos (.inr rfl)]
    rw [activateBestChainStep, fork, isTip, assertThat, throwIf, if_neg (not_not.mpr pos),
      if_neg (by split <;> omega)]
    simp only [stays, ok_bind]
    rw [connectLoop_first grownNow active below onPath next corrupted]
    rfl
  rw [activateOnce, found]
  simp only [isTip, if_neg notGoal, step, ok_bind]
  rfl

/-! Progress. -/

/-- The blocks that have no mark of failure. -/
def unfailed (tree : Tree) : Finset Pointer :=
  tree.blocks.toFinset.filter fun p => (tree.index p).nStatus.failed = false

/-- The work of the tip, where no tip is less than any. -/
def tipWork (tree : Tree) : Nat :=
  match tree.tip with
  | none => 0
  | some t => (tree.index t).nChainWork + 1

/-- How much the work of the tip can grow. -/
def headroom (tree : Tree) : Nat :=
  (tree.blocks.map fun p => (tree.index p).nChainWork).sum + 1 - tree.tipWork

/-- What gets less in every round that is not the last one. -/
def remaining (tree : Tree) : Nat ×ₗ Nat := toLex (tree.unfailed.card, tree.headroom)

section

variable (blocks : after.blocks = tree.blocks)
  (marks : ∀ p, (tree.index p).nStatus.failed = true → (after.index p).nStatus.failed = true)
include blocks marks

theorem unfailed_subset
    : after.unfailed ⊆ tree.unfailed := by
  intro p clean
  rw [unfailed, Finset.mem_filter, blocks] at clean
  refine Finset.mem_filter.mpr ⟨clean.1, ?_⟩
  by_contra failed
  rw [marks p (Bool.not_eq_false _ ▸ failed)] at clean
  cases clean.2

theorem unfailed_lt (mem : x ∈ tree.blocks) (before : (tree.index x).nStatus.failed = false)
    (now : (after.index x).nStatus.failed = true)
    : after.unfailed.card < tree.unfailed.card := by
  have subset := unfailed_subset blocks marks
  refine Finset.card_lt_card ((Finset.ssubset_iff_of_subset subset).mpr ⟨x, ?_, ?_⟩)
  · exact Finset.mem_filter.mpr ⟨mem_toFinset.mpr mem, before⟩
  · rw [unfailed, Finset.mem_filter, now]
    exact fun both => nomatch both.2

end

/-- A tip with more work leaves less room. -/
theorem headroom_lt (formed : after.WellFormed) (blocks : after.blocks = tree.blocks)
    (work : ∀ p, (after.index p).nChainWork = (tree.index p).nChainWork)
    (active : after.ActiveIs tip) (more : tree.tipWork < after.tipWork)
    : after.headroom < tree.headroom := by
  have sum : (after.blocks.map fun p => (after.index p).nChainWork)
      = tree.blocks.map fun p => (tree.index p).nChainWork := by
    rw [blocks, funext work]
  have bound : after.tipWork ≤ (tree.blocks.map fun p => (tree.index p).nChainWork).sum + 1 := by
    rw [tipWork, active.tip formed]
    cases tip with
    | none => exact Nat.zero_le _
    | some t =>
      have inside : (after.index t).nChainWork
          ∈ tree.blocks.map fun p => (tree.index p).nChainWork := by
        rw [← sum]
        exact mem_map_of_mem active.1
      exact Nat.succ_le_succ (single_le_sum (fun _ _ => Nat.zero_le _) _ inside)
  rw [headroom, headroom, sum]
  omega

theorem tipWork_lt (formed : after.WellFormed) {t} (active : after.ActiveIs (some t))
    (work : ∀ p, (after.index p).nChainWork = (tree.index p).nChainWork)
    (better : after.betterThan tree.tip = true)
    : tree.tipWork < after.tipWork := by
  rw [tipWork, tipWork, active.tip formed]
  cases isTip : tree.tip with
  | none => exact Nat.succ_pos _
  | some old =>
    simp only [betterThan, isTip, active.tip formed, decide_eq_true_eq, work] at better
    simp only [work]
    omega

/-- While blocks of the chain of `goal` are connected, the tip is above the fork. -/
structure Climbing (start : Tree) (goal : Pointer) (fork : Option Pointer) (tree : Tree)
    (tip : Option Pointer)
    : Prop extends Connecting start goal tree tip where
  above : ∀ f, fork = some f → ∃ t, tip = some t ∧ f ∈ start.path t

theorem climbing_rule (verdict : Pointer → Verdict) (fork : Option Pointer)
    (formed : start.WellFormed) (inside : goal ∈ start.blocks)
    : ConnectRule verdict start goal (Climbing start goal fork) where
  same := fun _ _ climbing => climbing.same
  active := fun _ _ climbing => climbing.active
  onPath := fun _ t climbing => climbing.onPath t rfl
  connect := by
    intro tree tip p after climbing next child _ prune
    refine ⟨climbing.connect formed inside next child prune, fun f isFork => ⟨p, rfl, ?_⟩⟩
    obtain ⟨t, rfl, below⟩ := climbing.above f isFork
    exact formed.graded.mem_of_child child below

theorem climbing_start (formed : tree.WellFormed) (skips : tree.Skips) (active : tree.ActiveIs tip)
    {chain} (atFork : { tree with chainActive := chain }.ActiveIs (tree.findFork goal))
    : Climbing tree goal (tree.findFork goal) { tree with chainActive := chain }
        (tree.findFork goal) where
  toConnecting := connecting_start formed skips active atFork
  above := fun f isFork => ⟨f, isFork, formed.graded.self_mem f⟩

section

variable {middle : Option Pointer} (active : start.ActiveIs tip)
  (climbing : Climbing start goal (start.findFork goal) tree middle)
include active climbing

/-- Blocks above the tip are off the chain that was active before. -/
theorem Climbing.off_chain (formed : start.WellFormed) (skips : start.Skips)
    (onPath : q ∈ start.path goal) (above : ∀ t, middle = some t → q ∉ start.path t)
    : start.contains q = false := by
  by_contra onChain
  rw [Bool.not_eq_false] at onChain
  obtain ⟨fork, found, below⟩ := findFork_greatest formed skips active onPath onChain
  obtain ⟨t, isTip, lower⟩ := climbing.above fork found
  exact above t isTip (formed.graded.ancestor_trans lower below)

/-- After a block that may be corrupted the same chain is selected, and is blocked by it. -/
theorem Climbing.blocked (grown : Grown start)
    (last : start.lastCandidate start.setBlockIndexCandidates = some goal)
    (usable : start.findUnusable (start.path goal) = .ok none)
    (onPath : x ∈ start.path goal) (next : (start.index x).pprev = middle)
    (corrupted : verdict x = .invalid true)
    : Blocked verdict tree := by
  have formed := grown.formed
  have same := climbing.same
  have formedNow := same.wellFormed formed
  obtain ⟨mem, greatest⟩ := lastCandidate_some last
  have inside := grown.known goal mem
  have still : goal ∈ tree.setBlockIndexCandidates := by
    by_contra erased
    obtain ⟨t, y, isTip, ancestor, worse⟩ := climbing.erased goal mem erased
    have below := formed.graded.ancestor_trans (climbing.onPath t isTip) ancestor
    exact absurd (formed.rank_le grown.work inside below) (not_le_of_gt (worse_iff.mp worse))
  have again : tree.findMostWorkChain = .ok (some goal, tree) := by
    refine findMostWorkChain_again (lastCandidate_eq still fun q candidate => ?_) ?_
    · rw [same.worse]
      exact greatest q (climbing.kept q candidate)
    rw [findUnusable_none] at usable ⊢
    rw [same.path]
    intro q before
    have ancestor := (takeWhile_sublist _).subset before
    have inactive : tree.contains q = false := by
      simpa using mem_takeWhile_imp before
    have off := climbing.off_chain active formed grown.skips ancestor fun t isTip below => by
      have onChain : tree.contains q = true :=
        ((isTip ▸ climbing.active).contains_iff formedNow).mpr (same.path t ▸ below)
      rw [inactive] at onChain
      cases onChain
    obtain ⟨linked, good⟩ := usable q (mem_takeWhile_of_not_contains formed active ancestor off)
    rw [same.field (·.nChainTx), same.field (·.nHeight)]
    refine ⟨linked, ?_⟩
    have data : (tree.index q).nStatus.haveData = (start.index q).nStatus.haveData :=
      same.haveData q
    rw [unusable, climbing.failed, data]
    exact good
  refine ⟨goal, tree, x, again, ?_, ?_, corrupted⟩
  · rw [same.path]
    exact onPath
  · rw [same.field (·.pprev), climbing.active.tip formedNow]
    exact next

end

theorem Search.marks (search : Search start tree) {p}
    (failed : (start.index p).nStatus.failed = true)
    : (tree.index p).nStatus.failed = true := by
  rcases search.entry p with same | ⟨marked, -⟩
  · rw [same]
    exact failed
  · rw [marked]
    exact Bool.or_true _

/-- A round that is not the last one leaves less to do, unless a block may be corrupted. -/
theorem Rooted.activateOnce (rooted : Rooted tree)
    (run : tree.activateOnce verdict maxReorgLength = .ok (.running, after))
    : Rooted after ∧ SameWork tree after
      ∧ (after.remaining < tree.remaining
        ∨ ∃ searched goal middle x, Search tree searched
          ∧ searched.lastCandidate searched.setBlockIndexCandidates = some goal
          ∧ searched.findUnusable (searched.path goal) = .ok none
          ∧ Climbing searched goal (searched.findFork goal) after middle
          ∧ x ∈ searched.path goal ∧ (searched.index x).pprev = middle
          ∧ verdict x = .invalid true) := by
  obtain ⟨⟨found, searched⟩, search, rest⟩ := bind_ok.mp run
  cases found with
  | none => cases rest
  | some goal =>
    obtain ⟨searches, selected⟩ := findMostWorkLoop_of_ok rooted.formed (.refl tree) search
    obtain ⟨last, usable⟩ := selected goal rfl
    have rootedNow := searches.rooted rooted
    have formed := rootedNow.formed
    obtain ⟨tip, active⟩ := rootedNow.active
    have inside := rootedNow.known goal (lastCandidate_some last).1
    have searchedWork := searches.sameWork
    have fewer : searched.unfailed.card ≤ tree.unfailed.card :=
      Finset.card_le_card (unfailed_subset searchedWork.blocks fun p failed =>
        searches.marks failed)
    by_cases isTip : searched.tip = some goal
    · simp only [if_pos isTip] at rest
      cases rest
    simp only [if_neg isTip] at rest
    obtain ⟨⟨result, final⟩, step, rest⟩ := bind_ok.mp rest
    rcases activateBestChainStep_cases formed rootedNow.skips active step with
      ⟨rfl, -, -⟩ | ⟨-, progress, chain, fuel, isResult, atFork, connected⟩
    · cases rest
    have rule := climbing_rule verdict (searched.findFork goal) formed inside
    have stopped := rule.connectLoop formed rootedNow.skips
      (climbing_start formed rootedNow.skips active atFork) connected
    rw [isResult] at rest
    have runs : progress ≠ .systemError ∧ final.tip ≠ some goal ∧ final = after := by
      by_cases failed : progress = .systemError
      · simp only [if_pos failed] at rest
        cases rest
      by_cases reached : final.tip = some goal
      · simp only [if_neg failed, if_pos reached] at rest
        cases rest
      · simp only [if_neg failed, if_neg reached] at rest
        cases rest
        exact ⟨failed, reached, rfl⟩
    obtain ⟨noError, notReached, rfl⟩ := runs
    cases stopped with
    | unfinished reached =>
      exact absurd (reached.active.tip (reached.same.wellFormed formed)) notReached
    | better reached isBetter =>
      have same := reached.same
      have formedNow := same.wellFormed formed
      have finalWork := searchedWork.trans same.sameWork
      refine ⟨same.rooted rootedNow reached.active reached.kept, finalWork, .inl ?_⟩
      have marks : final.unfailed.card ≤ tree.unfailed.card :=
        (Finset.card_le_card (unfailed_subset same.blocks fun p failed => by
          rw [reached.failed]
          exact failed)).trans fewer
      have tipBefore : tip = tree.tip := by
        rw [← active.tip formed, Tree.tip, searches.chainActive, Tree.tip]
      rw [tipBefore] at isBetter
      have less := headroom_lt formedNow finalWork.blocks finalWork.work reached.active
        (tipWork_lt formedNow reached.active finalWork.work isBetter)
      exact Prod.Lex.toLex_lt_toLex.mpr ((Nat.lt_or_eq_of_le marks).imp_right (⟨·, less⟩))
    | @invalid middle tip' x corruptionPossible reached onPath next isInvalid rejected =>
      have same := reached.same
      cases corruptionPossible with
      | true =>
        cases rejected
        exact ⟨same.rooted rootedNow reached.active reached.kept, searchedWork.trans same.sameWork,
          .inr ⟨searched, goal, tip', x, searches, last, usable, reached, onPath, next, isInvalid⟩⟩
      | false =>
        have marked : middle.MarkedInvalid x final := rejected
        have mem := formed.path_mem inside onPath
        have sameFinal := same.trans (marked.sameLinks (same.blocks ▸ mem))
        have clean : (searched.index x).nStatus.failed = false := by
          have off := reached.off_chain active formed rootedNow.skips onPath
            fun t isTip' below =>
              formed.graded.ne_of_child (next.trans isTip') below rfl
          have good := (findUnusable_none.mp usable x
            (mem_takeWhile_of_not_contains formed active onPath off)).2
          rw [unusable, Bool.or_eq_false_iff] at good
          exact good.1
        have activeNow : final.ActiveIs tip' :=
          (marked.sameLinks (same.blocks ▸ mem)).activeIs marked.chainActive reached.active
        refine ⟨sameFinal.rooted rootedNow activeNow fun p candidate => ?_,
          searchedWork.trans sameFinal.sameWork, .inl ?_⟩
        · rw [marked.candidates] at candidate
          exact reached.kept p (mem_of_mem_filter candidate)
        have strictly : final.unfailed.card < searched.unfailed.card := by
          refine unfailed_lt sameFinal.blocks (fun p failed => ?_) mem clean
            ((marked.failed x).mpr (.inl rfl))
          rw [← reached.failed] at failed
          exact (marked.failed p).mpr (.inr failed)
        exact Prod.Lex.toLex_lt_toLex.mpr (.inl (strictly.trans_le fewer))
    | systemError => exact absurd rfl noError

/-- A round that is not the last one leaves less to do, or a blocked tree. -/
theorem Grown.activateOnce (grown : Grown tree)
    (run : tree.activateOnce verdict maxReorgLength = .ok (.running, after))
    : Grown after ∧ (after.remaining < tree.remaining ∨ Blocked verdict after) := by
  obtain ⟨rooted, same, progress⟩ := grown.toRooted.activateOnce run
  refine ⟨same.grown grown rooted, ?_⟩
  rcases progress with
    less | ⟨searched, goal, middle, x, search, last, usable, climbing, onPath, next, corrupted⟩
  · exact .inl less
  · have grownNow := search.grown grown
    obtain ⟨tip, active⟩ := grownNow.active
    exact .inr (climbing.blocked active grownNow last usable onPath next corrupted)

/-! Whole runs. -/

theorem activateBestChain_of_once
    (once : tree.activateOnce verdict maxReorgLength = .ok (.running, middle)) (rounds : Nat)
    : tree.activateBestChain verdict maxReorgLength (rounds + 1)
      = middle.activateBestChain verdict maxReorgLength rounds := by
  rw [activateBestChain, once]
  rfl

/-- From a blocked tree the loop runs forever. -/
theorem Blocked.runs (blocked : Blocked verdict tree) (grown : Grown tree)
    (pos : 0 < maxReorgLength) (rounds : Nat)
    : ∃ after, tree.activateBestChain verdict maxReorgLength rounds = .ok (.running, after) := by
  induction rounds generalizing tree with
  | zero => exact ⟨tree, rfl⟩
  | succ rounds ih =>
    obtain ⟨middle, once, again, grownNow⟩ := blocked.once grown pos
    rw [activateBestChain_of_once once]
    exact ih again grownNow

theorem Reaches.runs (reaches : Reaches verdict maxReorgLength tree state)
    (runs : ∀ rounds, ∃ after,
      state.activateBestChain verdict maxReorgLength rounds = .ok (.running, after)) (rounds : Nat)
    : ∃ after, tree.activateBestChain verdict maxReorgLength rounds = .ok (.running, after) := by
  induction reaches generalizing rounds with
  | refl => exact runs rounds
  | round once rest ih =>
    cases rounds with
    | zero => exact ⟨_, rfl⟩
    | succ rounds =>
      rw [activateBestChain_of_once once]
      exact ih runs rounds

theorem Reaches.grown (reaches : Reaches verdict maxReorgLength tree state) (grown : Grown tree)
    : Grown state := by
  induction reaches with
  | refl => exact grown
  | round once rest ih => exact ih (grown.activateOnce once).1

/-- The loop ends where no tree that it comes to is blocked. -/
theorem Grown.ends (grown : Grown tree)
    (free : ∀ state, Reaches verdict maxReorgLength tree state → ¬ Blocked verdict state)
    : Ends verdict maxReorgLength tree := by
  induction isLeft : tree.remaining using WellFoundedLT.induction generalizing tree with
  | ind left ih =>
    by_cases runs : ∃ middle, tree.activateOnce verdict maxReorgLength = .ok (.running, middle)
    · obtain ⟨middle, once⟩ := runs
      obtain ⟨grownNow, less | blocked⟩ := grown.activateOnce once
      · obtain ⟨rounds, ended⟩ := ih middle.remaining (isLeft ▸ less) grownNow
          (fun state reaches => free state (.round once reaches)) rfl
        refine ⟨rounds + 1, fun after run => ended after ?_⟩
        rw [← activateBestChain_of_once once]
        exact run
      · exact absurd blocked (free middle (.round once (.refl middle)))
    · refine ⟨1, fun after run => runs ?_⟩
      obtain ⟨⟨outcome, middle⟩, once, rest⟩ := bind_ok.mp run
      by_cases running : outcome = .running
      · exact ⟨middle, running ▸ once⟩
      · simp only [if_neg running] at rest
        cases rest
        exact absurd rfl running

/-- `ActivateBestChain` ends if and only if it never comes to a block that `ConnectBlock` finds
invalid with the possibility of a corruption.
-/
theorem ends_iff_never_blocked (grown : Grown tree) (pos : 0 < maxReorgLength)
    : Ends verdict maxReorgLength tree
      ↔ ∀ state, Reaches verdict maxReorgLength tree state → ¬ Blocked verdict state := by
  refine ⟨fun ends state reaches blocked => ?_, grown.ends⟩
  obtain ⟨rounds, ended⟩ := ends
  obtain ⟨after, run⟩ := reaches.runs (blocked.runs (reaches.grown grown) pos) rounds
  exact ended after run

/-- Three blocks with data, of which the first one is active. -/
def downloadedBranch : Tree := branch { valid := .transactions, haveData := true } false

theorem downloadedBranch_grown : Grown downloadedBranch where
  formed := branch_wellFormed _ _
  skips := skips_of_table (branch_index _ _) (by decide)
  active := ⟨some 1, by decide, by decide⟩
  known := by decide
  work := by
    intro p mem q child
    match p with
    | 0 | 1 | _ + 4 => cases child
    | 2 | 3 =>
      cases child
      decide

theorem ends_iff_never_blocked_branch
    : Grown downloadedBranch ∧ Ends (fun _ => .valid) 99 downloadedBranch := by
  refine ⟨downloadedBranch_grown, ?_⟩
  refine (ends_iff_never_blocked downloadedBranch_grown (by decide)).mpr fun state _ blocked => ?_
  obtain ⟨_, _, _, -, -, -, corrupted⟩ := blocked
  cases corrupted

/-- Where the second block is found invalid but possibly corrupted, the loop runs forever. -/
theorem corrupted_branch_never_ends
    : Grown downloadedBranch
      ∧ ¬ Ends (fun p => if p = 2 then .invalid true else .valid) 99 downloadedBranch := by
  refine ⟨downloadedBranch_grown, fun ⟨rounds, ended⟩ => ?_⟩
  have blocked : Blocked (fun p => if p = 2 then .invalid true else .valid) downloadedBranch :=
    ⟨3, downloadedBranch, 2, rfl, by decide, rfl, rfl⟩
  have pos : (0 : Int) < 99 := by decide
  obtain ⟨after, run⟩ := blocked.runs downloadedBranch_grown pos rounds
  exact ended after run

end Tree

end Resistance.BlockTree

import Resistance.BlockTree.ActivateBestChain

/-! `ActivateBestChain` with an oracle for the validity of blocks: when it returns true, the tip
has the most work of all blocks with valid and downloaded chains, and no assertion fails on the
way.
-/

namespace Resistance.BlockTree

open List Primitives Lib.Forest Lib.Checks

/-- `ConnectBlock`, with no disk errors and no corruption. -/
def oracle (valid : Pointer → Bool) (p : Pointer) : Verdict :=
  if valid p then .valid else .invalid false

namespace Tree

/-- A state that passes `CheckBlockIndex`. -/
structure Audited (hashGenesisBlock : Uint256) (tree : Tree) : Prop where
  formed : tree.WellFormed
  skips : tree.Skips
  known : ∀ p ∈ tree.setBlockIndexCandidates, p ∈ tree.blocks
  active : ∃ tip, tree.ActiveIs (some tip)
  checked : tree.checkBlockIndex hashGenesisBlock = .ok ()

/-- A state of a node that has not pruned any block. The active chain is one of blocks that have
been downloaded, found valid and not been marked since.
-/
structure Ready (hashGenesisBlock : Uint256) (valid : Pointer → Bool) (tree : Tree)
    : Prop extends Audited hashGenesisBlock tree where
  unpruned : tree.fHavePruned = false
  connected : ∀ q, tree.contains q = true
    → tree.linked q = true ∧ (tree.index q).nStatus.failed = false ∧ valid q = true

/-- The active chain is the best one: it is valid and not worse than it was, and no block with
a valid chain that is downloaded and not marked has more work.
-/
structure BestActive (valid : Pointer → Bool) (start after : Tree) (tip : Pointer) : Prop where
  isTip : after.tip = some tip
  isValid : ∀ q ∈ after.path tip, valid q = true
  climbed : ∀ t, start.tip = some t → (start.index t).nChainWork ≤ (after.index tip).nChainWork
  greatest : ∀ p ∈ start.blocks,
    (∀ q ∈ start.path p, start.hasData q = true ∧ valid q = true
      ∧ (start.index q).nStatus.failed = false)
    → (start.index p).nChainWork ≤ (after.index tip).nChainWork
  candidate : tip ∈ after.setBlockIndexCandidates

variable {hashGenesisBlock : Uint256} {valid : Pointer → Bool} {maxReorgLength : Int}
  {start tree after : Tree} {goal p q tip best : Pointer}

/-! What CheckBlockIndex guarantees. -/

namespace Ready

variable (ready : Ready hashGenesisBlock valid tree)

include ready

theorem node (mem : p ∈ tree.blocks)
    : tree.checkNode hashGenesisBlock (tree.index p).nHeight (tree.firstsOf p) p = .ok () := by
  obtain ⟨tip, active⟩ := ready.active
  refine checkBlockIndex_node ready.formed ready.checked (fun empty => ?_) mem
  have length := length_chainOf ready.formed tip
  rw [← active.2, empty] at length
  cases length

/-- Linked blocks are those whose ancestors all have data. -/
theorem linked_iff (mem : p ∈ tree.blocks)
    : tree.linked p = true ↔ ∀ q ∈ tree.path p, tree.hasData q = true := by
  have processed := (checkNode_ok (ready.node mem)).1
  have data : ∀ q ∈ tree.path p, tree.hasData q = true ↔ (tree.index q).nTx ≠ 0 := by
    intro q ancestor
    have passed := ready.node (ready.formed.path_mem mem ancestor)
    unfold checkNode at passed
    simp only [bind_ok, assertThat_ok, exists_const] at passed
    obtain ⟨-, -, -, same, -⟩ := passed
    have same := same (by rw [ready.unpruned]; rfl)
    rw [hasData, ne_eq, ← same, Bool.not_eq_true', Bool.not_eq_false]
  rw [linked, decide_eq_true_eq, ne_eq, ← processed, not_not, firstsOf_neverProcessed]
  exact forall₂_congr fun q ancestor => (data q ancestor).symm

theorem linked_path (mem : p ∈ tree.blocks) (isLinked : tree.linked p = true)
    (ancestor : q ∈ tree.path p)
    : tree.linked q = true := by
  have data := (ready.linked_iff mem).mp isLinked
  refine (ready.linked_iff (ready.formed.path_mem mem ancestor)).mpr fun r below => ?_
  exact data r (ready.formed.graded.ancestor_trans ancestor below)

theorem candidate_linked (candidate : p ∈ tree.setBlockIndexCandidates)
    : tree.linked p = true := by
  have mem := ready.known p candidate
  obtain ⟨processed, never⟩ := checkNode_ok (ready.node mem)
  exact decide_eq_true fun zero => processed.mpr zero (never candidate)

/-- Linked blocks without marks that are not worse than the tip are candidates. -/
theorem complete (mem : p ∈ tree.blocks) (isLinked : tree.linked p = true)
    (clean : ∀ q ∈ tree.path p, (tree.index q).nStatus.failed = false)
    (asGood : tree.notWorseThanTip p = true)
    : p ∈ tree.setBlockIndexCandidates := by
  have passed := ready.node mem
  have invalid : (tree.firstsOf p).invalid = none :=
    (firstsOf_none (·.invalid) fun q => (tree.index q).nStatus.failedValid).mpr
      fun q ancestor => (Bool.or_eq_false_iff.mp (clean q ancestor)).1
  have processed : (tree.firstsOf p).neverProcessed = none := by
    by_contra never
    have zero := (checkNode_ok passed).1.mp never
    rw [linked, zero] at isLinked
    cases isLinked
  unfold checkNode at passed
  simp only [bind_ok, assertThat_ok, exists_const] at passed
  obtain ⟨-, -, -, -, missing, -, -, -, -, -, -, -, -, -, -, -, -, -, rest⟩ := passed
  have missing := missing (by rw [ready.unpruned]; rfl)
  rw [if_pos ⟨asGood, processed⟩] at rest
  obtain ⟨_, candidate, -⟩ := bind_ok.mp rest
  exact of_decide_eq_true (assertThat_ok.mp candidate invalid (.inl (missing.trans processed)))

/-- Every chain starts with the genesis block of the active chain. -/
theorem root (mem : p ∈ tree.blocks) : ∃ q ∈ tree.path p, tree.genesis = some q := by
  induction p using ready.formed.graded.induction with
  | step p ih =>
    cases child : (tree.index p).pprev with
    | none =>
      have passed := ready.node mem
      unfold checkNode at passed
      simp only [bind_ok, assertThat_ok, exists_const] at passed
      exact ⟨p, ready.formed.graded.self_mem p, passed.2.1 child⟩
    | some parent =>
      obtain ⟨q, ancestor, isGenesis⟩ := ih parent child (ready.formed.closed p parent mem child)
      exact ⟨q, ready.formed.graded.mem_of_child child ancestor, isGenesis⟩

end Ready

/-! The race. -/

/-- A block with a valid chain that is not worse than the first tip. It is a candidate, and so
is every block that is better and has no marks.
-/
structure Champion (valid : Pointer → Bool) (start tree : Tree) (best : Pointer) : Prop where
  known : best ∈ start.blocks ∧ start.linked best = true
  bestValid : ∀ q ∈ start.path best, valid q = true ∧ (tree.index q).nStatus.failed = false
  climbed : ∀ t, start.tip = some t → start.rank t ≤ start.rank best
  complete : ∀ p ∈ start.blocks, start.linked p = true
    → (∀ q ∈ start.path p, (tree.index q).nStatus.failed = false)
    → start.rank best ≤ start.rank p → p ∈ tree.setBlockIndexCandidates

/-- How the tree stands after some rounds from `start`: there is a champion that is not worse
than the tip.
-/
structure Racing (valid : Pointer → Bool) (start tree : Tree) (tip best : Pointer)
    : Prop extends Champion valid start tree best where
  same : SameLinks start tree
  active : tree.ActiveIs (some tip)
  tipValid : ∀ q ∈ start.path tip, valid q = true ∧ (tree.index q).nStatus.failed = false
  behind : start.rank tip ≤ start.rank best
  kept : ∀ p ∈ tree.setBlockIndexCandidates, p ∈ start.setBlockIndexCandidates
  marks : ∀ p, (tree.index p).nStatus.failed = true
    → ∃ q ∈ start.path p, (start.index q).nStatus.failed = true ∨ valid q = false

section

variable (champion : Champion valid start tree best)
include champion

theorem Champion.candidate
    : best ∈ tree.setBlockIndexCandidates :=
  champion.complete best champion.known.1 champion.known.2
    (fun q ancestor => (champion.bestValid q ancestor).2) (le_refl _)

/-- Candidates that are worse may be lost. -/
theorem Champion.prune
    (failed : ∀ q, (after.index q).nStatus.failed = (tree.index q).nStatus.failed)
    (candidates : ∀ p ∈ tree.setBlockIndexCandidates, start.rank best ≤ start.rank p
      → p ∈ after.setBlockIndexCandidates)
    : Champion valid start after best where
  known := champion.known
  bestValid := by
    intro q ancestor
    rw [failed]
    exact champion.bestValid q ancestor
  climbed := champion.climbed
  complete := by
    intro p mem isLinked clean atLeast
    simp only [failed] at clean
    exact candidates p (champion.complete p mem isLinked clean atLeast) atLeast

/-- A better block with a valid chain takes over. -/
theorem Champion.raise (known : p ∈ start.blocks ∧ start.linked p = true)
    (isValid : ∀ q ∈ start.path p, valid q = true ∧ (tree.index q).nStatus.failed = false)
    : ∃ next, Champion valid start tree next ∧ start.rank p ≤ start.rank next := by
  rcases le_total (start.rank p) (start.rank best) with lower | higher
  · exact ⟨best, champion, lower⟩
  · refine ⟨p, ⟨known, isValid, fun t isTip => (champion.climbed t isTip).trans higher, ?_⟩,
      le_refl _⟩
    intro q mem isLinked clean atLeast
    exact champion.complete q mem isLinked clean (higher.trans atLeast)

end

theorem Ready.racing (ready : Ready hashGenesisBlock valid start)
    : ∃ tip, Racing valid start start tip tip := by
  obtain ⟨tip, active⟩ := ready.active
  have formed := ready.formed
  have chain : ∀ q ∈ start.path tip, start.linked q = true
      ∧ (start.index q).nStatus.failed = false ∧ valid q = true :=
    fun q ancestor => ready.connected q ((active.contains_iff formed).mpr ancestor)
  have clean : ∀ q ∈ start.path tip, valid q = true ∧ (start.index q).nStatus.failed = false :=
    fun q ancestor => ⟨(chain q ancestor).2.2, (chain q ancestor).2.1⟩
  refine ⟨tip, {
    same := .refl start
    active
    tipValid := clean
    known := ⟨active.1, (chain tip (formed.graded.self_mem tip)).1⟩
    bestValid := clean
    behind := le_refl _
    climbed := ?_
    kept := fun _ => id
    complete := ?_
    marks := fun p failed => ⟨p, formed.graded.self_mem p, .inl failed⟩ }⟩
  · intro t isTip
    rw [active.tip formed] at isTip
    cases isTip
    exact le_refl _
  · intro p mem isLinked unmarked atLeast
    refine ready.complete mem isLinked unmarked (notWorseThanTip_iff.mpr fun t isTip => ?_)
    cases (active.tip formed).symm.trans isTip
    exact atLeast

/-- Where the best block is the tip and no candidate is better, the active chain is the best. -/
theorem Racing.bestActive (ready : Ready hashGenesisBlock valid start)
    (racing : Racing valid start tree tip best) (reached : start.rank best ≤ start.rank tip)
    (greatest : ∀ q ∈ tree.setBlockIndexCandidates, start.rank q ≤ start.rank tip)
    : BestActive valid start tree tip := by
  have same := racing.same
  have isBest : best = tip := start.rank_injective (le_antisymm reached racing.behind)
  have work : ∀ {p r : Pointer}, start.rank p ≤ start.rank r
      → (start.index p).nChainWork ≤ (tree.index r).nChainWork := by
    intro p r atMost
    rw [same.field (·.nChainWork)]
    by_contra more
    exact absurd atMost (not_le_of_gt (rank_lt_iff.mpr (.inl (not_le.mp more))))
  refine {
    isTip := racing.active.tip (same.wellFormed ready.formed)
    isValid := ?_
    climbed := fun t isTip => work ((racing.climbed t isTip).trans reached)
    greatest := ?_
    candidate := isBest ▸ racing.candidate }
  · intro q ancestor
    rw [same.path] at ancestor
    exact (racing.tipValid q ancestor).1
  intro p mem chain
  by_contra more
  rw [not_le, same.field (·.nChainWork)] at more
  have higher : start.rank tip < start.rank p := rank_lt_iff.mpr (.inl more)
  have isLinked := (ready.linked_iff mem).mpr fun q ancestor => (chain q ancestor).1
  have candidate := racing.complete p mem isLinked (fun q ancestor => ?_)
    (reached.trans higher.le)
  · exact absurd (greatest p candidate) (not_le_of_gt higher)
  by_contra failed
  obtain ⟨r, below, cause⟩ := racing.marks q (Bool.not_eq_false _ ▸ failed)
  obtain ⟨-, isValid, unmarked⟩ := chain r (ready.formed.graded.ancestor_trans ancestor below)
  rw [isValid, unmarked] at cause
  rcases cause with absurd | absurd <;> cases absurd

/-! Selecting. -/

/-- A chain without marks stays so. -/
theorem Search.unfailed (search : Search start tree) (formed : start.WellFormed)
    (clean : ∀ q ∈ start.path p, (start.index q).nStatus.failed = false)
    (ancestor : q ∈ start.path p)
    : (tree.index q).nStatus.failed = false := by
  rcases search.entry q with same | ⟨-, bad, condemned⟩
  · rw [same]
    exact clean q ancestor
  · have below := formed.graded.ancestor_trans ancestor (unusableOn_some condemned.found).1
    have failed := condemned.failed
    rw [clean bad below] at failed
    cases failed

/-- The chain that is selected: its last block is the greatest candidate, and it has no marks. -/
structure Selected (start tree : Tree) (goal : Pointer) : Prop where
  candidate : goal ∈ tree.setBlockIndexCandidates
  clean : ∀ q ∈ start.path goal, (tree.index q).nStatus.failed = false
  greatest : ∀ q ∈ tree.setBlockIndexCandidates, start.rank q ≤ start.rank goal

section

variable (ready : Ready hashGenesisBlock valid start)
include ready

section

variable (racing : Racing valid start tree tip best)
include racing

/-- A chain is selected, and the race goes on. -/
theorem Racing.search
    : ∃ goal searched, tree.findMostWorkChain = .ok (some goal, searched)
      ∧ Search tree searched ∧ Racing valid start searched tip best
      ∧ Selected start searched goal := by
  have same := racing.same
  have formed := same.wellFormed ready.formed
  have data : ∀ p ∈ tree.setBlockIndexCandidates, ∀ q ∈ tree.path p, tree.hasData q = true := by
    intro p candidate q ancestor
    have before := racing.kept p candidate
    rw [same.path] at ancestor
    rw [same.haveData]
    exact (ready.linked_iff (ready.known p before)).mp (ready.candidate_linked before) q ancestor
  have linked : ∀ p ∈ tree.setBlockIndexCandidates, ∀ q ∈ tree.path p,
      tree.linked q = true ∨ (tree.index q).nHeight = 0 := by
    intro p candidate q ancestor
    have before := racing.kept p candidate
    rw [same.path] at ancestor
    rw [same.linked]
    exact .inl (ready.linked_path (ready.known p before) (ready.candidate_linked before) ancestor)
  obtain ⟨result, searched, run, search, exhausted, returned⟩ :=
    findMostWorkLoop_ok formed linked (.refl tree) (Nat.lt_succ_self _)
  have sameSearched := search.sameLinks formed
    (findMostWorkLoop_unlinked formed data linked (.refl tree) run)
  have sameNow := same.trans sameSearched
  have cleanPath : ∀ {r : Pointer}, (∀ q ∈ start.path r, valid q = true
        ∧ (tree.index q).nStatus.failed = false)
      → ∀ q ∈ start.path r, valid q = true ∧ (searched.index q).nStatus.failed = false := by
    intro r clean q ancestor
    rw [← same.path] at ancestor clean
    exact ⟨(clean q ancestor).1, search.unfailed formed (fun s below => (clean s below).2) ancestor⟩
  have racingNow : Racing valid start searched tip best := by
    refine {
      same := sameNow
      active := sameSearched.activeIs search.chainActive racing.active
      tipValid := cleanPath racing.tipValid
      known := racing.known
      bestValid := cleanPath racing.bestValid
      behind := racing.behind
      climbed := racing.climbed
      kept := fun p candidate => racing.kept p (search.candidates p candidate)
      complete := ?_
      marks := ?_ }
    · intro p mem isLinked clean atLeast
      have before := racing.complete p mem isLinked
        (fun q ancestor => search.unmarked (clean q ancestor) ▸ clean q ancestor) atLeast
      by_contra erased
      obtain ⟨bad, condemned | detached⟩ := search.erased p before erased
      · have ancestor := (unusableOn_some condemned.found).1
        rw [same.path] at ancestor
        have failed := condemned.failed
        rw [← search.unmarked (clean bad ancestor), clean bad ancestor] at failed
        cases failed
      · have present := data p before bad (unusableOn_some detached.found).1
        rw [detached.missing] at present
        cases present
    · intro p failed
      rcases search.entry p with unchanged | ⟨-, bad, condemned⟩
      · rw [unchanged] at failed
        exact racing.marks p failed
      · have ancestor := (unusableOn_some condemned.found).1
        rw [same.path] at ancestor
        obtain ⟨q, below, cause⟩ := racing.marks bad condemned.failed
        exact ⟨q, ready.formed.graded.ancestor_trans ancestor below, cause⟩
  cases result with
  | none =>
    have absurd := racingNow.candidate
    rw [exhausted rfl] at absurd
    cases absurd
  | some goal =>
    obtain ⟨candidate, usable, greatest⟩ := returned goal rfl
    refine ⟨goal, searched, run, search, racingNow, candidate, ?_, ?_⟩
    · intro q ancestor
      rw [← sameNow.path] at ancestor
      refine unfailed_path (sameNow.wellFormed ready.formed) racingNow.active ?_ usable ancestor
      rintro _ ⟨⟩ r below
      rw [sameNow.path] at below
      exact (racingNow.tipValid r below).2
    · intro q mem
      rw [← worse_eq_false, ← sameNow.worse]
      exact greatest q mem

/-! Connecting. -/

/-- While the selected chain is connected, no block of it is better than its last one, which
stays a candidate.
-/
structure Chasing (valid : Pointer → Bool) (start : Tree) (goal : Pointer) (tree : Tree)
    (tip best : Pointer)
    : Prop extends Racing valid start tree tip best where
  goalKnown : goal ∈ start.blocks ∧ start.linked goal = true
  goalCandidate : goal ∈ tree.setBlockIndexCandidates
  onPath : tip ∈ start.path goal
  clean : ∀ q ∈ start.path goal, (tree.index q).nStatus.failed = false
  top : ∀ q ∈ start.path goal, start.rank q ≤ start.rank goal
  greatest : ∀ q ∈ tree.setBlockIndexCandidates, start.rank q ≤ start.rank goal

/-- A better block of the selected chain would be a candidate itself. -/
theorem Racing.top (selected : Selected start tree goal) (ancestor : q ∈ start.path goal)
    : start.rank q ≤ start.rank goal := by
  have before := racing.kept goal selected.candidate
  have inside := ready.known goal before
  have atLeast := selected.greatest best racing.candidate
  by_contra higher
  rw [not_le] at higher
  refine absurd (selected.greatest q (racing.complete q (ready.formed.path_mem inside ancestor)
    (ready.linked_path inside (ready.candidate_linked before) ancestor) (fun r below => ?_)
    (atLeast.trans higher.le))) (not_le_of_gt higher)
  exact selected.clean r (ready.formed.graded.ancestor_trans ancestor below)

/-- After the tip has been disconnected to the fork. -/
theorem Racing.chasing (selected : Selected start tree goal) {chain fork}
    (atFork : { tree with chainActive := chain }.ActiveIs (some fork))
    (inTip : fork ∈ start.path tip) (inGoal : fork ∈ start.path goal)
    : ∃ next, Chasing valid start goal { tree with chainActive := chain } fork next := by
  have formed := ready.formed
  have before := racing.kept goal selected.candidate
  have goalKnown := And.intro (ready.known goal before) (ready.candidate_linked before)
  have forkKnown := And.intro (formed.path_mem goalKnown.1 inGoal)
    (ready.linked_path goalKnown.1 goalKnown.2 inGoal)
  have forkValid := fun q below => racing.tipValid q (formed.graded.ancestor_trans inTip below)
  obtain ⟨next, champion, behind⟩ := racing.raise forkKnown forkValid
  have same := racing.same.trans (sameLinks_chainActive tree chain)
  refine ⟨next, {
    champion.prune (fun _ => rfl) (fun _ candidate _ => candidate) with
    same
    active := atFork
    tipValid := forkValid
    behind
    kept := racing.kept
    marks := racing.marks
    goalKnown
    goalCandidate := selected.candidate
    onPath := inGoal
    clean := selected.clean
    top := fun q ancestor => racing.top ready selected ancestor
    greatest := selected.greatest }⟩

end

/-- Connecting the next valid block. -/
theorem Chasing.connect (chasing : Chasing valid start goal tree tip best)
    (next : p ∈ start.path goal) (child : (start.index p).pprev = some tip)
    (isValid : valid p = true) (prune : (tree.withTip p).pruneBlockIndexCandidates = .ok after)
    : ∃ best', Chasing valid start goal after p best' := by
  have formed := ready.formed
  have formedTree := chasing.same.wellFormed formed
  have mem := formed.path_mem chasing.goalKnown.1 next
  obtain ⟨sameTip, active, status⟩ := withTip_ok formedTree chasing.active
    (chasing.same.blocks ▸ mem)
  have sameMiddle := chasing.same.trans sameTip
  obtain ⟨t, isTip, isAfter⟩ := pruneBlockIndexCandidates_ok prune
  rw [active.tip (sameMiddle.wellFormed formed)] at isTip
  cases isTip
  have candidates : ∀ q, q ∈ after.setBlockIndexCandidates
      ↔ q ∈ tree.setBlockIndexCandidates ∧ start.rank p ≤ start.rank q := by
    intro q
    rw [isAfter, mem_filter, sameMiddle.worse, Bool.not_eq_true', worse_eq_false]
    rfl
  have failed : ∀ q, (after.index q).nStatus.failed = (tree.index q).nStatus.failed := by
    intro q
    rw [isAfter]
    exact (status q).1
  have pathValid : ∀ q ∈ start.path p, valid q = true ∧ (tree.index q).nStatus.failed = false := by
    intro q ancestor
    rcases formed.graded.mem_lineage.mp ancestor with rfl | ⟨_, isChild, below⟩
    · exact ⟨isValid, chasing.clean q next⟩
    · cases child.symm.trans isChild
      exact chasing.tipValid q below
  obtain ⟨best', champion, behind⟩ := chasing.raise
    ⟨mem, ready.linked_path chasing.goalKnown.1 chasing.goalKnown.2 next⟩ pathValid
  have pruned : Champion valid start after best' := champion.prune failed
    fun q candidate atLeast => (candidates q).mpr ⟨candidate, behind.trans atLeast⟩
  have sameAfter : SameLinks start after := by
    rw [isAfter]
    exact sameMiddle.trans (sameLinks_candidates _ _)
  have activeAfter : after.ActiveIs (some p) := by
    rw [isAfter]
    exact ⟨active.1, active.2⟩
  refine ⟨best', {
    pruned with
    same := sameAfter
    active := activeAfter
    tipValid := ?_
    behind
    kept := fun q candidate => chasing.kept q ((candidates q).mp candidate).1
    marks := ?_
    goalKnown := chasing.goalKnown
    goalCandidate := (candidates goal).mpr ⟨chasing.goalCandidate, chasing.top p next⟩
    onPath := next
    clean := fun q ancestor => (failed q).trans (chasing.clean q ancestor)
    top := chasing.top
    greatest := fun q candidate => chasing.greatest q ((candidates q).mp candidate).1 }⟩
  · intro q ancestor
    exact ⟨(pathValid q ancestor).1, (failed q).trans (pathValid q ancestor).2⟩
  · intro q isFailed
    exact chasing.marks q ((failed q).symm.trans isFailed)

/-- The race goes on after a block was found invalid. -/
theorem Chasing.reject (chasing : Chasing valid start goal tree tip best) {x}
    (onPath : x ∈ start.path goal) (isInvalid : valid x = false)
    (marked : tree.MarkedInvalid x after)
    : Racing valid start after tip best := by
  have formed := ready.formed
  have mem := formed.path_mem chasing.goalKnown.1 onPath
  have sameMarked := marked.sameLinks (chasing.same.blocks ▸ mem)
  have still : ∀ {r : Pointer}, (∀ q ∈ start.path r, valid q = true
        ∧ (tree.index q).nStatus.failed = false)
      → ∀ q ∈ start.path r, valid q = true ∧ (after.index q).nStatus.failed = false := by
    intro r clean q ancestor
    obtain ⟨isValid, unmarked⟩ := clean q ancestor
    refine ⟨isValid, ?_⟩
    rw [← Bool.not_eq_true, marked.failed, not_or, Bool.not_eq_true]
    refine ⟨?_, unmarked⟩
    rintro rfl
    rw [isInvalid] at isValid
    cases isValid
  refine {
    known := chasing.known
    bestValid := still chasing.bestValid
    climbed := chasing.climbed
    complete := ?_
    same := chasing.same.trans sameMarked
    active := sameMarked.activeIs marked.chainActive chasing.active
    tipValid := still chasing.tipValid
    behind := chasing.behind
    kept := ?_
    marks := ?_ }
  · intro p inside isLinked clean atLeast
    have before : ∀ q ∈ start.path p, (tree.index q).nStatus.failed = false := by
      intro q ancestor
      have unmarked := clean q ancestor
      rw [← Bool.not_eq_true, marked.failed, not_or, Bool.not_eq_true] at unmarked
      exact unmarked.2
    have differs : p ≠ x := by
      rintro rfl
      have unmarked := clean p (formed.graded.self_mem p)
      rw [(marked.failed p).mpr (.inl rfl)] at unmarked
      cases unmarked
    rw [marked.candidates, mem_filter]
    exact ⟨chasing.complete p inside isLinked before atLeast, decide_eq_true differs⟩
  · intro p candidate
    rw [marked.candidates] at candidate
    exact chasing.kept p (mem_of_mem_filter candidate)
  · intro p failed
    rcases (marked.failed p).mp failed with rfl | before
    · exact ⟨p, formed.graded.self_mem p, .inr isInvalid⟩
    · exact chasing.marks p before

/-- No assertion fails while the selected chain is connected. -/
theorem chasing_safe (goal : Pointer)
    : ConnectSafe (oracle valid) start goal
        fun tree tip => ∃ t best, tip = some t ∧ Chasing valid start goal tree t best where
  same := fun _ _ ⟨_, _, _, chasing⟩ => chasing.same
  active := by
    rintro tree _ ⟨t, best, rfl, chasing⟩
    exact chasing.active
  onPath := by
    rintro tree _ ⟨_, best, ⟨⟩, chasing⟩
    exact chasing.onPath
  connect := by
    rintro tree _ p after ⟨t, best, rfl, chasing⟩ next child isValid prune
    have isValid : valid p = true := by
      by_contra isInvalid
      rw [oracle, if_neg isInvalid] at isValid
      cases isValid
    obtain ⟨best', further⟩ := chasing.connect ready next child isValid prune
    exact ⟨p, best', rfl, further⟩
  prunes := by
    rintro tree _ p ⟨t, best, rfl, chasing⟩ next child -
    have formedTree := chasing.same.wellFormed ready.formed
    have mem : p ∈ tree.blocks :=
      chasing.same.blocks ▸ ready.formed.path_mem chasing.goalKnown.1 next
    obtain ⟨sameTip, active, -⟩ := withTip_ok formedTree chasing.active mem
    have sameMiddle := chasing.same.trans sameTip
    rw [pruneBlockIndexCandidates, active.tip (sameMiddle.wellFormed ready.formed)]
    have left : goal ∈ (tree.withTip p).setBlockIndexCandidates.filter
        fun q => !(tree.withTip p).worse q p := by
      rw [mem_filter, sameMiddle.worse, Bool.not_eq_true', worse_eq_false]
      exact ⟨chasing.goalCandidate, chasing.top p next⟩
    refine ⟨_, bind_ok.mpr ⟨(), assertThat_ok.mpr (ne_nil_of_mem left), rfl⟩⟩
  grounded := by
    rintro tree _ ⟨t, best, rfl, -⟩
    exact Option.some_ne_none t

end

/-! Rounds. -/

theorem SameLinks.heightOf (same : SameLinks start tree) (pindex : Option Pointer)
    : tree.heightOf pindex = start.heightOf pindex := by
  cases pindex with
  | none => rfl
  | some p =>
    simp only [Tree.heightOf, same.field (·.nHeight)]

section

variable (ready : Ready hashGenesisBlock valid start)
include ready

/-- Where the selected chain has been connected, it is the best one. -/
theorem Chasing.bestActive (chasing : Chasing valid start goal tree goal best)
    : BestActive valid start tree goal :=
  chasing.toRacing.bestActive ready (chasing.greatest best chasing.candidate) chasing.greatest

/-- Where a round has left the tip: on the way to the selected block, or below an invalid block
of the chain that was selected.
-/
inductive Placed (valid : Pointer → Bool) (start tree : Tree) (tip : Pointer) : Prop where
  | onWay {goal best : Pointer} (chasing : Chasing valid start goal tree tip best)
  | stuck {goal x : Pointer} (candidate : goal ∈ start.setBlockIndexCandidates)
      (onPath : x ∈ start.path goal) (next : (start.index x).pprev = some tip)
      (isInvalid : valid x = false) (marked : (tree.index x).nStatus.failed = true)
      (greatest : ∀ q ∈ tree.setBlockIndexCandidates, start.rank q ≤ start.rank goal)

section

variable (racing : Racing valid start tree tip best)
include racing

/-- A step is too long, or the race goes on after it. -/
theorem Racing.step (selected : Selected start tree goal) (pos : 0 < maxReorgLength)
    : tree.activateBestChainStep (oracle valid) maxReorgLength goal = .ok (.reorgTooLong, tree)
        ∧ maxReorgLength < tree.reorgLength goal
      ∨ tree.reorgLength goal ≤ maxReorgLength ∧ ∃ after tip' best',
        tree.activateBestChainStep (oracle valid) maxReorgLength goal = .ok (.done, after)
        ∧ Racing valid start after tip' best' ∧ Placed valid start after tip'
        ∧ (tip' = goal → BestActive valid start after goal) := by
  have same := racing.same
  have formed := same.wellFormed ready.formed
  have skips := same.skips ready.skips
  have inside := ready.known goal (racing.kept goal selected.candidate)
  -- All chains have the genesis block in common.
  obtain ⟨root, inGoal, isGenesis⟩ := ready.root inside
  obtain ⟨_, inTip, isGenesis'⟩ := ready.root (same.blocks ▸ racing.active.1)
  cases isGenesis.symm.trans isGenesis'
  rw [← same.path] at inGoal inTip
  obtain ⟨fork, found, -⟩ := findFork_greatest formed skips racing.active inGoal
    ((racing.active.contains_iff formed).mpr inTip)
  obtain ⟨forkInGoal, _, ⟨⟩, forkInTip⟩ := findFork_below formed skips racing.active found
  rw [same.path] at forkInGoal forkInTip
  have safe := chasing_safe ready goal
  have begins : ∀ chain, { tree with chainActive := chain }.ActiveIs (some fork)
      → ∃ t best, some fork = some t
        ∧ Chasing valid start goal { tree with chainActive := chain } t best := by
    intro chain atFork
    obtain ⟨next, chasing⟩ := racing.chasing ready selected atFork forkInTip forkInGoal
    exact ⟨fork, next, rfl, chasing⟩
  have height : tree.heightOf (some fork) = start.heightOf (some fork) := same.heightOf _
  have goalHeight := same.field (·.nHeight) goal
  obtain ⟨⟨result, after⟩, run⟩ := activateBestChainStep_returns formed skips racing.active found
    pos fun chain atFork => by
      have low : 0 ≤ start.heightOf (some fork) := Int.natCast_nonneg _
      rw [height]
      exact safe.connectLoop_returns ready.formed ready.skips (begins chain atFork) (by omega)
  rcases activateBestChainStep_cases formed skips racing.active run with
    ⟨rfl, rfl, tooLong⟩ | ⟨short, progress, chain, fuel, isResult, atFork, connected⟩
  · exact .inl ⟨run, tooLong⟩
  rw [found] at atFork connected
  rw [height] at connected
  subst isResult
  refine .inr ⟨short, after, ?_⟩
  cases safe.connectLoop ready.formed ready.skips (begins chain atFork) connected with
  | unfinished reached =>
    obtain ⟨_, best', ⟨⟩, chasing⟩ := reached
    exact ⟨goal, best', run, chasing.toRacing, .onWay chasing, fun _ => chasing.bestActive ready⟩
  | better reached isBetter =>
    obtain ⟨t, best', -, chasing⟩ := reached
    refine ⟨t, best', run, chasing.toRacing, .onWay chasing, ?_⟩
    rintro rfl
    exact chasing.bestActive ready
  | @invalid middle tip' x corruptionPossible reached onPath next isInvalid rejected =>
    obtain ⟨t, best', rfl, chasing⟩ := reached
    have notValid : valid x = false ∧ corruptionPossible = false := by
      rw [oracle] at isInvalid
      split at isInvalid
      next => cases isInvalid
      next notValid =>
        cases isInvalid
        exact ⟨Bool.not_eq_true _ ▸ notValid, rfl⟩
    obtain ⟨notValid, rfl⟩ := notValid
    have marked : middle.MarkedInvalid x after := rejected
    refine ⟨t, best', run, chasing.reject ready onPath notValid marked,
      .stuck (racing.kept goal selected.candidate) onPath next notValid
        ((marked.failed x).mpr (.inl rfl)) fun q candidate => ?_, ?_⟩
    · rw [marked.candidates] at candidate
      exact chasing.greatest q (mem_of_mem_filter candidate)
    · rintro rfl
      exact absurd rfl (ready.formed.graded.ne_of_child next onPath)
  | systemError _ isError =>
    rw [oracle] at isError
    split at isError <;> cases isError

/-- A round ends the run with the best chain, stops it because it would disconnect too many
blocks, or the race goes on.
-/
theorem Racing.once (pos : 0 < maxReorgLength)
    : ∃ goal searched, tree.findMostWorkChain = .ok (some goal, searched)
      ∧ ((∃ after tip, tree.activateOnce (oracle valid) maxReorgLength = .ok (.activated, after)
            ∧ BestActive valid start after tip)
          ∧ searched.reorgLength goal ≤ maxReorgLength
        ∨ tree.activateOnce (oracle valid) maxReorgLength
              = .ok (.stopped .reorgTooLong, searched)
          ∧ maxReorgLength < searched.reorgLength goal
        ∨ (∃ after tip' best', tree.activateOnce (oracle valid) maxReorgLength
              = .ok (.running, after) ∧ Racing valid start after tip' best'
            ∧ Placed valid start after tip')
          ∧ searched.reorgLength goal ≤ maxReorgLength) := by
  obtain ⟨goal, searched, found, -, racing, selected⟩ := racing.search ready
  have same := racing.same
  have formed := same.wellFormed ready.formed
  have isTip := racing.active.tip formed
  refine ⟨goal, searched, found, ?_⟩
  by_cases here : tip = goal
  · subst here
    have once : tree.activateOnce (oracle valid) maxReorgLength = .ok (.activated, searched) := by
      rw [activateOnce, found, ok_bind]
      simp only [if_pos isTip]
      rfl
    have nothing : searched.reorgLength tip = 0 := by
      rw [reorgLength, findFork_of_tip formed (same.skips ready.skips) racing.active
        (fun t isSame => Option.some_inj.mp isSame ▸ formed.graded.self_mem tip), isTip]
      simp
    exact .inl ⟨⟨searched, tip, once, racing.bestActive ready
      (selected.greatest best racing.candidate) selected.greatest⟩, by omega⟩
  · have notGoal : searched.tip ≠ some goal := by
      rw [isTip]
      exact fun absurd => here (Option.some_inj.mp absurd)
    rcases racing.step ready selected pos with
      ⟨run, tooLong⟩ | ⟨short, after, tip', best', run, further, placed, reached⟩
    · refine .inr (.inl ⟨?_, tooLong⟩)
      rw [activateOnce, found, ok_bind]
      simp only [if_neg notGoal, run]
      rfl
    · have isTip' := further.active.tip (further.same.wellFormed ready.formed)
      by_cases there : tip' = goal
      · subst there
        refine .inl ⟨⟨after, tip', ?_, reached rfl⟩, short⟩
        rw [activateOnce, found]
        simp only [if_neg notGoal, run, ok_bind, isTip']
        rfl
      · refine .inr (.inr ⟨⟨after, tip', best', ?_, further, placed⟩, short⟩)
        have notThere : after.tip ≠ some goal := by
          rw [isTip']
          exact fun absurd => there (Option.some_inj.mp absurd)
        rw [activateOnce, found]
        simp only [if_neg notGoal, run, ok_bind, if_neg notThere]
        rfl

theorem Racing.run (pos : 0 < maxReorgLength) (rounds : Nat)
    : ∃ outcome after, tree.activateBestChain (oracle valid) maxReorgLength rounds
        = .ok (outcome, after)
      ∧ (outcome = .activated → ∃ tip, BestActive valid start after tip) := by
  induction rounds generalizing tree tip best with
  | zero => exact ⟨.running, tree, rfl, nofun⟩
  | succ rounds ih =>
    rw [activateBestChain]
    obtain ⟨goal, searched, -, ⟨⟨after, tip', once, isBest⟩, -⟩ | ⟨once, -⟩
      | ⟨⟨after, tip', best', once, further, -⟩, -⟩⟩ := racing.once ready pos
    · rw [once]
      exact ⟨.activated, after, rfl, fun _ => ⟨tip', isBest⟩⟩
    · rw [once]
      exact ⟨.stopped .reorgTooLong, searched, rfl, nofun⟩
    · rw [once]
      exact ih further

end

end

/-- When `ActivateBestChain` returns true, the active chain is the best one. No assertion fails
on the way, however many rounds there are.
-/
theorem activateBestChain_best (ready : Ready hashGenesisBlock valid tree)
    (pos : 0 < maxReorgLength) (rounds : Nat)
    : ∃ outcome after, tree.activateBestChain (oracle valid) maxReorgLength rounds
        = .ok (outcome, after)
      ∧ (outcome = .activated → ∃ tip, BestActive valid tree after tip) := by
  obtain ⟨tip, racing⟩ := ready.racing
  exact racing.run ready pos rounds

/-! Four blocks. -/

/-- The status of a block that has been connected. -/
def connectedStatus : BlockStatus := { valid := .scripts, haveData := true, haveUndo := true }

/-- A chain of two blocks is active, and a branch of two blocks has more work. -/
def forkTable (genesis : BlockStatus) : List (Pointer × CBlockIndex) :=
  [row 1 none none 0 1 genesis, row 2 (some 1) (some 1) 1 2 connectedStatus,
    row 3 (some 1) (some 1) 1 3, row 4 (some 3) (some 1) 2 4]

def downloadedFork : Tree :=
  { ofTable (forkTable connectedStatus) with
    setBlockIndexCandidates := [2, 3, 4], chainActive := [some 1, some 2] }

/-- What a run returned is read off by evaluating it. -/
theorem returned_of_eval {verdict rounds candidates newTip outcome} (evaluated
      : (tree.activateBestChain verdict maxReorgLength rounds).toOption.map
          (fun (outcome, after) => (outcome, after.tip, after.setBlockIndexCandidates))
        = some (outcome, newTip, candidates))
    : ∃ after, tree.activateBestChain verdict maxReorgLength rounds = .ok (outcome, after)
      ∧ after.tip = newTip ∧ after.setBlockIndexCandidates = candidates := by
  cases run : tree.activateBestChain verdict maxReorgLength rounds with
  | error message =>
    rw [run] at evaluated
    cases evaluated
  | ok result =>
    rw [run] at evaluated
    cases evaluated
    exact ⟨result.2, rfl, rfl, rfl⟩

theorem audited_of_table {table} (tip : Pointer) (index : tree.index = (ofTable table).index)
    (map : tree.mapBlockIndex = (ofTable table).mapBlockIndex)
    (distinct : (table.map Prod.fst).Nodup)
    (rows : ∀ row ∈ table, rowOk table row.2 = true ∧ tree.skipOk row.1 = true)
    (known : ∀ p ∈ tree.setBlockIndexCandidates, p ∈ tree.blocks)
    (active : tree.ActiveIs (some tip)) (checked : tree.checkBlockIndex hashGenesisBlock = .ok ())
    : Audited hashGenesisBlock tree where
  formed := wellFormed_of_table index map distinct fun row mem => (rows row mem).1
  skips := skips_of_table index fun row mem => (rows row mem).2
  known
  active := ⟨tip, active⟩
  checked

theorem downloadedFork_audited : Audited (numberedHash 1) downloadedFork :=
  audited_of_table 2 rfl rfl (by decide) (by decide) (by decide) ⟨by decide, by decide⟩
    (by decide +kernel)

theorem Audited.ready (audited : Audited hashGenesisBlock tree)
    (unpruned : tree.fHavePruned = false) (active : tree.ActiveIs (some tip))
    (connected : ∀ q ∈ tree.path tip, tree.linked q = true
      ∧ (tree.index q).nStatus.failed = false ∧ valid q = true)
    : Ready hashGenesisBlock valid tree where
  toAudited := audited
  unpruned := unpruned
  connected := fun q onChain => connected q ((active.contains_iff audited.formed).mp onChain)

theorem downloadedFork_ready : Ready (numberedHash 1) (fun p => p ≠ 4) downloadedFork := by
  have active : downloadedFork.ActiveIs (some 2) := ⟨by decide, by decide⟩
  exact downloadedFork_audited.ready rfl active (by decide)

/-- Where the last block of the branch is invalid, the block below it becomes the tip. -/
theorem downloadedFork_best
    : Ready (numberedHash 1) (fun p => p ≠ 4) downloadedFork
      ∧ ∃ after tip,
        downloadedFork.activateBestChain (oracle fun p => p ≠ 4) 99 3 = .ok (.activated, after)
        ∧ BestActive (fun p => p ≠ 4) downloadedFork after tip := by
  have pos : (0 : Int) < 99 := by decide
  obtain ⟨outcome, after, run, isBest⟩ := activateBestChain_best downloadedFork_ready pos 3
  obtain ⟨_, returned, -⟩ : ∃ after,
      downloadedFork.activateBestChain (oracle fun p => p ≠ 4) 99 3 = .ok (.activated, after)
      ∧ after.tip = some 3 ∧ after.setBlockIndexCandidates = [3] :=
    returned_of_eval (by decide +kernel)
  cases run.symm.trans returned
  obtain ⟨tip, best⟩ := isBest rfl
  exact ⟨downloadedFork_ready, after, tip, run, best⟩

/-- The first block of the chain has been pruned, so that the branch below its last block is no
candidate.
-/
def prunedFork : Tree :=
  { ofTable (forkTable { valid := .scripts }) with
    setBlockIndexCandidates := [2, 4]
    chainActive := [some 1, some 2]
    mapBlocksUnlinked := [(1, 3)]
    fHavePruned := true }

/-- The first block of the active chain has been marked as failed. -/
def markedFork : Tree :=
  { ofTable (forkTable { connectedStatus with failedValid := true }) with
    chainActive := [some 1, some 2] }

/-- `CheckBlockIndex` asks neither that the blocks below a candidate of a pruned node are
candidates, nor that the blocks of the active chain are valid, nor that they are unmarked. In
each of the three cases the tip is no candidate in the end, and in the second it has less work
than the tip at the start.
-/
theorem activateBestChain_audited
    : (Audited (numberedHash 1) prunedFork
        ∧ ∃ after,
          prunedFork.activateBestChain (oracle fun p => p ≠ 4) 99 3 = .ok (.activated, after)
          ∧ after.tip = some 3 ∧ after.setBlockIndexCandidates = [])
      ∧ (Audited (numberedHash 1) downloadedFork
        ∧ ∃ after,
          downloadedFork.activateBestChain (oracle fun p => p = 1) 99 3 = .ok (.activated, after)
          ∧ after.tip = some 1 ∧ after.setBlockIndexCandidates = [])
      ∧ (Audited (numberedHash 1) markedFork
        ∧ ∃ after,
          markedFork.activateBestChain (oracle fun _ => true) 99 3 = .ok (.activated, after)
          ∧ after.tip = some 2 ∧ after.setBlockIndexCandidates = []) := by
  refine ⟨⟨?_, returned_of_eval ?_⟩, ⟨downloadedFork_audited, returned_of_eval ?_⟩,
    ⟨?_, returned_of_eval ?_⟩⟩
  case refine_1 | refine_4 =>
    exact audited_of_table 2 rfl rfl (by decide) (by decide) (by decide) ⟨by decide, by decide⟩
      (by decide +kernel)
  all_goals decide +kernel

end Resistance.BlockTree.Tree

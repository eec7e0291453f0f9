import Mathlib.Data.List.TakeWhile
import Resistance.BlockTree.CheckIndex
import Resistance.BlockTree.Table

/-! `FindMostWorkChain` of `main.cpp`, which takes unusable candidates out of the set until the
best one is usable, and that it finds the best of the usable candidates.
-/

namespace Resistance.BlockTree

open List Primitives Lib.Forest Lib.Checks

/-- `nStatus |= BLOCK_FAILED_CHILD`. -/
def CBlockIndex.markFailedChild (entry : CBlockIndex) : CBlockIndex :=
  { entry with nStatus := { entry.nStatus with failedChild := true } }

namespace Tree

/-- `*setBlockIndexCandidates.rbegin()`. -/
def lastCandidate (tree : Tree) : List Pointer → Option Pointer
  | [] => none
  | p :: rest => match tree.lastCandidate rest with
    | none => some p
    | some q => if tree.worse p q then some q else some p

/-- Candidate chain is not usable (either invalid or missing data). -/
def unusable (tree : Tree) (p : Pointer) : Bool :=
  (tree.index p).nStatus.failed || !(tree.index p).nStatus.haveData

/-- The first unusable block on a path down to the active chain. -/
def findUnusable (tree : Tree) : List Pointer → Except String (Option Pointer)
  | [] => .ok none
  | pindexTest :: rest =>
    if tree.contains pindexTest then .ok none
    else do
      assertThat ((tree.index pindexTest).nChainTx ≠ 0 ∨ (tree.index pindexTest).nHeight = 0)
        "pindexTest->nChainTx || pindexTest->nHeight == 0"
      if tree.unusable pindexTest then return some pindexTest
      findUnusable tree rest

/-- The blocks from one down to, but without, another one. -/
def above (tree : Tree) (p q : Pointer) : List Pointer := (tree.path p).takeWhile (· ≠ q)

/-- Remove a block of an unusable chain from the set. If data is missing, the block goes back
to `mapBlocksUnlinked`, to be tried again when the data arrives.
-/
def dropBlock (fFailedChain fMissingData : Bool) (tree : Tree) (pindexFailed : Pointer) : Tree :=
  let tree :=
    if fFailedChain then tree.modify pindexFailed CBlockIndex.markFailedChild
    else if fMissingData then
      match (tree.index pindexFailed).pprev with
      | some pprev =>
        { tree with mapBlocksUnlinked := tree.mapBlocksUnlinked ++ [(pprev, pindexFailed)] }
      | none => tree
    else tree
  tree.eraseCandidate pindexFailed

/-- `pindexBestInvalid` follows an invalid candidate with more work. -/
def raiseBestInvalid (tree : Tree) (pindexNew : Pointer) : Tree :=
  {
    tree with
    pindexBestInvalid := match tree.pindexBestInvalid with
      | none => some pindexNew
      | some best =>
        if (tree.index pindexNew).nChainWork > (tree.index best).nChainWork then some pindexNew
        else some best
  }

/-- Remove the entire chain above an unusable block from the set, and the block itself. -/
def dropChain (tree : Tree) (pindexNew pindexTest : Pointer) : Tree :=
  let fFailedChain := (tree.index pindexTest).nStatus.failed
  let fMissingData := !(tree.index pindexTest).nStatus.haveData
  let start := if fFailedChain then tree.raiseBestInvalid pindexNew else tree
  ((tree.above pindexNew pindexTest).foldl (dropBlock fFailedChain fMissingData)
    start).eraseCandidate pindexTest

/-- The loop of `FindMostWorkChain`, with at most `fuel` rounds. -/
def findMostWorkLoop : Nat → Tree → Except String (Option Pointer × Tree)
  | 0, _ => .error "out of rounds"
  | fuel + 1, tree =>
    -- Find the best candidate header.
    match tree.lastCandidate tree.setBlockIndexCandidates with
    | none => .ok (none, tree)
    | some pindexNew => do
      match ← tree.findUnusable (tree.path pindexNew) with
      | none => return (some pindexNew, tree)
      | some pindexTest => findMostWorkLoop fuel (tree.dropChain pindexNew pindexTest)

/-- `FindMostWorkChain`. Every round takes a candidate out of the set. -/
def findMostWorkChain (tree : Tree) : Except String (Option Pointer × Tree) :=
  findMostWorkLoop (tree.setBlockIndexCandidates.length + 1) tree

/-! The last candidate. -/

variable {tree : Tree}

theorem lastCandidate_none {candidates}
    : tree.lastCandidate candidates = none ↔ candidates = [] := by
  cases candidates with
  | nil => simp [lastCandidate]
  | cons p rest =>
    simp only [lastCandidate]
    split
    · simp
    · split <;> simp

variable {p : Pointer}

theorem lastCandidate_some {candidates} (last : tree.lastCandidate candidates = some p)
    : p ∈ candidates ∧ ∀ q ∈ candidates, tree.worse p q = false := by
  simp only [worse_eq_false]
  induction candidates generalizing p with
  | nil => cases last
  | cons r rest ih =>
    rw [lastCandidate] at last
    split at last
    next none =>
      cases last
      rw [lastCandidate_none.mp none]
      simp
    next q some =>
      obtain ⟨inside, best⟩ := ih some
      split at last
      next worse =>
        cases last
        refine ⟨mem_cons_of_mem _ inside, fun s mem => ?_⟩
        rcases mem_cons.mp mem with rfl | below
        · exact (worse_iff.mp worse).le
        · exact best s below
      next notWorse =>
        cases last
        rw [worse_iff, not_lt] at notWorse
        refine ⟨mem_cons_self, fun s mem => ?_⟩
        rcases mem_cons.mp mem with rfl | below
        · exact le_refl _
        · exact (best s below).trans notWorse

/-! Unusable blocks. -/

/-- Specification of the search: the first unusable block before the active chain. -/
def unusableOn (tree : Tree) (path : List Pointer) : Option Pointer :=
  (path.takeWhile fun q => !tree.contains q).find? tree.unusable

theorem findUnusable_ok {path}
    (linked : ∀ q ∈ path, tree.linked q = true ∨ (tree.index q).nHeight = 0)
    : tree.findUnusable path = .ok (tree.unusableOn path) := by
  induction path with
  | nil => rfl
  | cons p rest ih =>
    have next := ih fun q mem => linked q (mem_cons_of_mem p mem)
    have chained : (tree.index p).nChainTx ≠ 0 ∨ (tree.index p).nHeight = 0 :=
      (linked p mem_cons_self).imp_left of_decide_eq_true
    rw [findUnusable, unusableOn]
    by_cases active : tree.contains p = true
    · simp [active]
    have check : assertThat _ "pindexTest->nChainTx || pindexTest->nHeight == 0" = .ok () :=
      assertThat_ok.mpr chained
    rw [check]
    by_cases bad : tree.unusable p = true
    · simp [active, bad]
    · simpa [active, bad, unusableOn] using next

theorem unusableOn_some {path b} (found : tree.unusableOn path = some b)
    : b ∈ path ∧ tree.contains b = false ∧ tree.unusable b = true
      ∧ ∀ q ∈ path.takeWhile (· ≠ b), tree.contains q = false ∧ tree.unusable q = false := by
  induction path with
  | nil => cases found
  | cons p rest ih =>
    by_cases active : tree.contains p = true
    · simp [unusableOn, active] at found
    by_cases bad : tree.unusable p = true
    · have same : p = b := by simpa [unusableOn, active, bad] using found
      subst same
      simpa [bad] using active
    have next : tree.unusableOn rest = some b := by
      simpa [unusableOn, active, bad] using found
    obtain ⟨mem, inactive, unusable, passed⟩ := ih next
    have ne : p ≠ b := by
      rintro rfl
      exact bad unusable
    refine ⟨mem_cons_of_mem p mem, inactive, unusable, ?_⟩
    simp only [ne_eq, ne, not_false_eq_true, decide_true, takeWhile_cons_of_pos, forall_mem_cons]
    exact ⟨⟨by simpa using active, by simpa using bad⟩, passed⟩

/-- From a block above, the search comes to the same unusable block. -/
theorem unusableOn_above (formed : tree.WellFormed) {q} (ancestor : q ∈ tree.path p)
    (passed : ∀ r ∈ tree.above p q, tree.contains r = false ∧ tree.unusable r = false)
    : tree.unusableOn (tree.path p) = tree.unusableOn (tree.path q) := by
  have split : tree.path p = tree.above p q ++ tree.path q := formed.graded.lineage_above ancestor
  rw [split]
  generalize tree.above p q = above at passed
  induction above with
  | nil => rfl
  | cons r above ih =>
    obtain ⟨⟨inactive, usable⟩, others⟩ := forall_mem_cons.mp passed
    simpa [unusableOn, inactive, usable] using ih others

theorem unusableOn_self (inactive : tree.contains p = false) (bad : tree.unusable p = true)
    : tree.unusableOn (tree.path p) = some p := by
  obtain ⟨rest, path⟩ := tree.path_cons p
  simp [unusableOn, path, inactive, bad]

/-! Dropping a chain. -/

/-- What dropping blocks changes. -/
structure Dropped (fFailedChain fMissingData : Bool) (dropped : List Pointer)
    (tree after : Tree) : Prop where
  mapBlockIndex : after.mapBlockIndex = tree.mapBlockIndex
  chainActive : after.chainActive = tree.chainActive
  entry : ∀ p, after.index p
    = if fFailedChain = true ∧ p ∈ dropped then (tree.index p).markFailedChild else tree.index p
  candidates : ∀ p, p ∈ after.setBlockIndexCandidates
    ↔ p ∈ tree.setBlockIndexCandidates ∧ p ∉ dropped
  sublist : after.setBlockIndexCandidates.Sublist tree.setBlockIndexCandidates
  unlinked : ∀ q p, (q, p) ∈ after.mapBlocksUnlinked
    ↔ (q, p) ∈ tree.mapBlocksUnlinked
      ∨ fFailedChain = false ∧ fMissingData = true ∧ p ∈ dropped
        ∧ (tree.index p).pprev = some q

theorem dropBlock_dropped (fFailedChain fMissingData : Bool) (tree : Tree) (p : Pointer)
    : Dropped fFailedChain fMissingData [p] tree (dropBlock fFailedChain fMissingData tree p) := by
  have index (tree : Tree) (q : Pointer) : (tree.eraseCandidate p).index q = tree.index q := rfl
  have candidates (tree : Tree) (q : Pointer) : q ∈ (tree.eraseCandidate p).setBlockIndexCandidates
      ↔ q ∈ tree.setBlockIndexCandidates ∧ q ∉ [p] := by
    simp [eraseCandidate]
  unfold dropBlock
  cases fFailedChain with
  | true =>
    refine ⟨rfl, rfl, fun q => ?_, candidates _, filter_sublist, fun r q => ?_⟩
    · simp [index, modify]
    · simp [eraseCandidate, modify]
  | false =>
    cases fMissingData with
    | false =>
      refine ⟨rfl, rfl, fun q => ?_, candidates _, filter_sublist, fun r q => ?_⟩
      · simp [index]
      · simp [eraseCandidate]
    | true =>
      cases child : (tree.index p).pprev with
      | none =>
        refine ⟨rfl, rfl, fun q => ?_, candidates _, filter_sublist, fun r q => ?_⟩
        · simp [index]
        · have notListed : q = p → (tree.index q).pprev ≠ some r := by
            rintro rfl parent
            cases child.symm.trans parent
          simpa [eraseCandidate] using fun same parent => absurd parent (notListed same)
      | some parent =>
        refine ⟨rfl, rfl, fun q => ?_, candidates _, filter_sublist, fun r q => ?_⟩
        · simp [index]
        have new : (r = parent ∧ q = p) ↔ (q = p ∧ (tree.index q).pprev = some r) := by
          constructor
          · rintro ⟨rfl, rfl⟩
            exact ⟨rfl, child⟩
          · rintro ⟨rfl, listed⟩
            cases child.symm.trans listed
            exact ⟨rfl, rfl⟩
        simp [eraseCandidate, new]

theorem Dropped.append {fFailedChain fMissingData first second tree middle after}
    (left : Dropped fFailedChain fMissingData first tree middle)
    (right : Dropped fFailedChain fMissingData second middle after)
    : Dropped fFailedChain fMissingData (first ++ second) tree after where
  mapBlockIndex := right.mapBlockIndex.trans left.mapBlockIndex
  chainActive := right.chainActive.trans left.chainActive
  entry := by
    intro p
    rw [right.entry, left.entry]
    by_cases failed : fFailedChain = true
    · by_cases inFirst : p ∈ first
      · by_cases inSecond : p ∈ second
        · simp [failed, inFirst, inSecond]
          rfl
        · simp [inSecond]
      · simp [inFirst]
    · simp [failed]
  candidates := by
    intro p
    rw [right.candidates, left.candidates, mem_append, not_or, and_assoc]
  sublist := right.sublist.trans left.sublist
  unlinked := by
    intro q p
    have pprev : (middle.index p).pprev = (tree.index p).pprev := by
      rw [left.entry]
      split <;> rfl
    rw [right.unlinked, left.unlinked, mem_append, pprev, or_assoc]
    simp only [or_and_right, and_or_left]

theorem foldl_dropBlock_dropped (fFailedChain fMissingData : Bool) (tree : Tree)
    (dropped : List Pointer)
    : Dropped fFailedChain fMissingData dropped tree
        (dropped.foldl (dropBlock fFailedChain fMissingData) tree) := by
  induction dropped generalizing tree with
  | nil => exact ⟨rfl, rfl, fun _ => by simp, fun _ => by simp, .refl _, fun _ _ => by simp⟩
  | cons p rest ih => exact (dropBlock_dropped _ _ tree p).append (ih _)

/-- What dropping the chain above an unusable block changes. -/
structure ChainDropped (tree : Tree) (p bad : Pointer) (after : Tree) : Prop where
  mapBlockIndex : after.mapBlockIndex = tree.mapBlockIndex
  chainActive : after.chainActive = tree.chainActive
  entry : ∀ q, after.index q
    = if (tree.index bad).nStatus.failed = true ∧ q ∈ tree.above p bad then
        (tree.index q).markFailedChild
      else tree.index q
  candidates : ∀ q, q ∈ after.setBlockIndexCandidates
    ↔ q ∈ tree.setBlockIndexCandidates ∧ ¬ (q = bad ∨ q ∈ tree.above p bad)
  sublist : after.setBlockIndexCandidates.Sublist tree.setBlockIndexCandidates
  unlinked : ∀ r q, (r, q) ∈ after.mapBlocksUnlinked
    ↔ (r, q) ∈ tree.mapBlocksUnlinked
      ∨ (tree.index bad).nStatus.failed = false ∧ (tree.index bad).nStatus.haveData = false
        ∧ q ∈ tree.above p bad ∧ (tree.index q).pprev = some r

theorem dropChain_dropped (tree : Tree) (p bad : Pointer)
    : ChainDropped tree p bad (tree.dropChain p bad) := by
  -- `pindexBestInvalid` is of no account to the rest.
  have dropped : Dropped (tree.index bad).nStatus.failed (!(tree.index bad).nStatus.haveData)
      (tree.above p bad) tree ((tree.above p bad).foldl
        (dropBlock (tree.index bad).nStatus.failed (!(tree.index bad).nStatus.haveData))
        (if (tree.index bad).nStatus.failed then tree.raiseBestInvalid p else tree)) := by
    split
    · obtain ⟨_, _, _, _, _, _⟩ := foldl_dropBlock_dropped (tree.index bad).nStatus.failed
        (!(tree.index bad).nStatus.haveData) (tree.raiseBestInvalid p) (tree.above p bad)
      constructor <;> assumption
    · exact foldl_dropBlock_dropped ..
  refine ⟨dropped.mapBlockIndex, dropped.chainActive, dropped.entry, ?_,
    filter_sublist.trans dropped.sublist, ?_⟩
  · intro q
    rw [dropChain, eraseCandidate, mem_filter, dropped.candidates, and_assoc,
      decide_eq_true_eq, not_or, and_comm (a := q ≠ bad)]
  · intro r q
    have unlinked := dropped.unlinked r q
    rw [Bool.not_eq_true'] at unlinked
    exact unlinked

section

variable {bad : Pointer} {after : Tree} (dropped : ChainDropped tree p bad after)
include dropped

theorem ChainDropped.marks (q : Pointer) (marked : (tree.index q).nStatus.failedChild = true)
    : (after.index q).nStatus.failedChild = true := by
  rw [dropped.entry]
  split
  · rfl
  · exact marked

theorem ChainDropped.lists (pair : Pointer × Pointer) (listed : pair ∈ tree.mapBlocksUnlinked)
    : pair ∈ after.mapBlocksUnlinked :=
  (dropped.unlinked pair.1 pair.2).mpr (.inl listed)

end

/-! The loop. -/

/-- The chain of the block fails at an ancestor, and what is above that is marked. -/
structure Condemned (start tree : Tree) (p bad : Pointer) : Prop where
  found : start.unusableOn (start.path p) = some bad
  failed : (start.index bad).nStatus.failed = true
  marked : ∀ q ∈ start.above p bad, (tree.index q).nStatus.failedChild = true

/-- The chain of the block misses the data of an ancestor, and what is above that is listed. -/
structure Detached (start tree : Tree) (p bad : Pointer) : Prop where
  found : start.unusableOn (start.path p) = some bad
  notFailed : (start.index bad).nStatus.failed = false
  listed : ∀ q ∈ start.above p bad, ∃ parent, (start.index q).pprev = some parent
    ∧ (parent, q) ∈ tree.mapBlocksUnlinked

/-- What the rounds so far have changed. -/
structure Search (start tree : Tree) : Prop where
  mapBlockIndex : tree.mapBlockIndex = start.mapBlockIndex
  chainActive : tree.chainActive = start.chainActive
  entry : ∀ p, tree.index p = start.index p
    ∨ tree.index p = (start.index p).markFailedChild ∧ ∃ bad, Condemned start tree p bad
  candidates : ∀ p ∈ tree.setBlockIndexCandidates, p ∈ start.setBlockIndexCandidates
  unlinked : ∀ pair ∈ start.mapBlocksUnlinked, pair ∈ tree.mapBlocksUnlinked
  erased : ∀ p ∈ start.setBlockIndexCandidates, p ∉ tree.setBlockIndexCandidates
    → ∃ bad, Condemned start tree p bad ∨ Detached start tree p bad

theorem Search.refl (tree : Tree) : Search tree tree where
  mapBlockIndex := rfl
  chainActive := rfl
  entry := fun _ => .inl rfl
  candidates := fun _ => id
  unlinked := fun _ => id
  erased := fun _ mem erased => absurd mem erased

section Rounds

variable {start after : Tree}

section

variable (search : Search start tree)
include search

theorem Search.field {β} (f : CBlockIndex → β) (p : Pointer)
    (free : ∀ entry : CBlockIndex, f entry.markFailedChild = f entry := by intro; rfl)
    : f (tree.index p) = f (start.index p) := by
  rcases search.entry p with same | ⟨marked, -⟩
  · rw [same]
  · rw [marked, free]

theorem Search.path (p : Pointer) : tree.path p = start.path p := by
  rw [Tree.path, search.field (·.nHeight), funext (search.field (·.pprev)), Tree.path]

theorem Search.contains (p : Pointer)
    : tree.contains p = start.contains p := by
  rw [Tree.contains, search.chainActive, search.field (·.nHeight), Tree.contains]

theorem Search.rank (p : Pointer) : tree.rank p = start.rank p :=
  rank_congr (search.field (·.nChainWork) p) (search.field (·.nSequenceId) p)

end

variable {bad q : Pointer}

theorem Search.unmarked (search : Search start tree)
    (notFailed : (tree.index p).nStatus.failed = false)
    : tree.index p = start.index p := by
  rcases search.entry p with same | ⟨marked, -⟩
  · exact same
  · have failed : (start.index p).markFailedChild.nStatus.failed = true := Bool.or_true _
    rw [← marked, notFailed] at failed
    cases failed

/-- A block is unusable if it was, or if it has been marked. -/
theorem Search.usable (search : Search start tree) (usable : tree.unusable p = false)
    : start.unusable p = false := by
  rw [unusable, Bool.or_eq_false_iff] at usable ⊢
  rw [← search.unmarked usable.1]
  exact usable

theorem Condemned.mono (condemned : Condemned start tree p bad)
    (grows : ∀ q, (tree.index q).nStatus.failedChild = true
      → (after.index q).nStatus.failedChild = true)
    : Condemned start after p bad :=
  ⟨condemned.found, condemned.failed, fun q between => grows q (condemned.marked q between)⟩

theorem Detached.missing (detached : Detached start tree p bad)
    : start.hasData bad = false := by
  obtain ⟨-, -, unusable, -⟩ := unusableOn_some detached.found
  simpa [Tree.unusable, hasData, detached.notFailed] using unusable

theorem Detached.mono (detached : Detached start tree p bad)
    (grows : ∀ pair ∈ tree.mapBlocksUnlinked, pair ∈ after.mapBlocksUnlinked)
    : Detached start after p bad := by
  refine ⟨detached.found, detached.notFailed, fun q between => ?_⟩
  obtain ⟨parent, child, listed⟩ := detached.listed q between
  exact ⟨parent, child, grows _ listed⟩

theorem above_append (formed : start.WellFormed) (ancestor : q ∈ start.path p)
    (found : start.unusableOn (start.path q) = some bad)
    : start.above p bad = start.above p q ++ start.above q bad :=
  formed.graded.above_append ancestor (unusableOn_some found).1

section

variable (formed : start.WellFormed) (ancestor : q ∈ start.path p)
  (passed : ∀ r ∈ start.above p q, start.contains r = false ∧ start.unusable r = false)
include formed ancestor passed

/-- What is said of an ancestor extends to a block above it that is reached by usable blocks
which have been treated alike.
-/
theorem Condemned.extend (condemned : Condemned start tree q bad)
    (marked : ∀ r ∈ start.above p q, (tree.index r).nStatus.failedChild = true)
    : Condemned start tree p bad := by
  refine ⟨(unusableOn_above formed ancestor passed).trans condemned.found, condemned.failed, ?_⟩
  rw [above_append formed ancestor condemned.found, forall_mem_append]
  exact ⟨marked, condemned.marked⟩

theorem Detached.extend (detached : Detached start tree q bad)
    (listed : ∀ r ∈ start.above p q, ∃ parent, (start.index r).pprev = some parent
      ∧ (parent, r) ∈ tree.mapBlocksUnlinked)
    : Detached start tree p bad := by
  refine ⟨(unusableOn_above formed ancestor passed).trans detached.found, detached.notFailed, ?_⟩
  rw [above_append formed ancestor detached.found, forall_mem_append]
  exact ⟨listed, detached.listed⟩

end

theorem mem_above_self (ne : p ≠ q)
    : p ∈ tree.above p q := by
  obtain ⟨rest, path⟩ := tree.path_cons p
  simp [above, path, ne]

theorem above_self (tree : Tree) (p : Pointer) : tree.above p p = [] :=
  Lib.Forest.above_self _ _ p

/-- A round takes the candidate out of the set. -/
theorem ChainDropped.shorter (dropped : ChainDropped tree p bad after)
    (mem : p ∈ tree.setBlockIndexCandidates)
    : after.setBlockIndexCandidates.length < tree.setBlockIndexCandidates.length := by
  refine Nat.lt_of_le_of_ne dropped.sublist.length_le fun same => ?_
  rw [← dropped.sublist.eq_of_length same, dropped.candidates] at mem
  apply mem.2
  by_cases self : p = bad
  · exact .inl self
  · right
    exact mem_above_self self

/-- The blocks above an ancestor have parents. -/
theorem pprev_of_above (formed : tree.WellFormed) {r} (ancestor : q ∈ tree.path p)
    (between : r ∈ tree.above p q)
    : ∃ parent, (tree.index r).pprev = some parent := by
  have descendant := (formed.graded.mem_above ancestor between).1
  have ne : r ≠ q := by
    simpa using (mem_takeWhile_imp between)
  rcases formed.graded.mem_lineage.mp descendant with rfl | ⟨parent, child, -⟩
  · exact absurd rfl ne
  · exact ⟨parent, child⟩

section

variable (search : Search start tree)
include search

theorem Search.above (p q : Pointer)
    : tree.above p q = start.above p q := by
  rw [Tree.above, search.path, Tree.above]

/-- What the search for an unusable block has passed was usable from the start. -/
theorem Search.found (found : tree.unusableOn (tree.path p) = some bad)
    : bad ∈ start.path p ∧ start.contains bad = false
      ∧ ∀ q ∈ start.above p bad, start.contains q = false ∧ start.unusable q = false := by
  obtain ⟨ancestor, inactive, -, passed⟩ := unusableOn_some found
  rw [search.path] at ancestor
  rw [search.contains] at inactive
  refine ⟨ancestor, inactive, fun q between => ?_⟩
  rw [← search.above] at between
  obtain ⟨offChain, usable⟩ := passed q between
  rw [search.contains] at offChain
  exact ⟨offChain, search.usable usable⟩

section

variable (formed : start.WellFormed)
include formed

section

variable (found : tree.unusableOn (tree.path p) = some bad)
include found

section

variable (dropped : ChainDropped tree p bad after)
include dropped

/-- If the unusable block has failed, all that is dropped is condemned. -/
theorem Search.condemned (failed : (tree.index bad).nStatus.failed = true)
    (mem : q = bad ∨ q ∈ start.above p bad)
    : ∃ root, Condemned start after q root := by
  obtain ⟨ancestor, inactive, passed⟩ := search.found found
  have base : ∃ root, Condemned start after bad root := by
    rcases search.entry bad with same | ⟨-, root, condemned⟩
    · rw [same] at failed
      refine ⟨bad, unusableOn_self inactive ?_, failed, ?_⟩
      · rw [Tree.unusable, failed, Bool.true_or]
      · rw [above_self]
        exact nofun
    · exact ⟨root, condemned.mono dropped.marks⟩
  obtain ⟨root, condemned⟩ := base
  refine ⟨root, ?_⟩
  rcases mem with rfl | between
  · exact condemned
  obtain ⟨descendant, inside⟩ := formed.graded.mem_above ancestor between
  refine condemned.extend formed descendant (fun r below => passed r (inside below)) ?_
  intro r below
  have inRound : r ∈ tree.above p bad := search.above p bad ▸ inside below
  rw [dropped.entry, if_pos ⟨failed, inRound⟩]
  rfl

/-- If the unusable block only misses its data, all that is dropped is detached. -/
theorem Search.detached (notFailed : (tree.index bad).nStatus.failed = false)
    (mem : q = bad ∨ q ∈ start.above p bad)
    : Detached start after q bad := by
  obtain ⟨ancestor, inactive, passed⟩ := search.found found
  obtain ⟨-, -, unusable, -⟩ := unusableOn_some found
  have missing : (tree.index bad).nStatus.haveData = false := by
    simpa [Tree.unusable, notFailed] using unusable
  have same := search.unmarked notFailed
  have base : Detached start after bad bad := by
    refine ⟨unusableOn_self inactive ?_, same ▸ notFailed, ?_⟩
    · rw [Tree.unusable, ← same]
      exact unusable
    · rw [above_self]
      exact nofun
  rcases mem with rfl | between
  · exact base
  obtain ⟨descendant, inside⟩ := formed.graded.mem_above ancestor between
  refine base.extend formed descendant (fun r below => passed r (inside below)) ?_
  intro r below
  obtain ⟨parent, child⟩ := pprev_of_above formed ancestor (inside below)
  refine ⟨parent, child, (dropped.unlinked parent r).mpr (.inr ⟨notFailed, missing, ?_, ?_⟩)⟩
  · exact search.above p bad ▸ inside below
  · rw [search.field (·.pprev)]
    exact child

/-- A round keeps the invariant. -/
theorem Search.step
    : Search start after := by
  refine ⟨dropped.mapBlockIndex.trans search.mapBlockIndex,
    dropped.chainActive.trans search.chainActive, ?_, ?_, ?_, ?_⟩
  · intro q
    rw [dropped.entry]
    split
    next marked =>
      have between : q ∈ start.above p bad := search.above p bad ▸ marked.2
      refine .inr ⟨?_, search.condemned formed found dropped marked.1 (.inr between)⟩
      rcases search.entry q with same | ⟨before, -⟩
      · rw [same]
      · rw [before]
        rfl
    next =>
      exact (search.entry q).imp_right fun ⟨marked, root, condemned⟩ =>
        ⟨marked, root, condemned.mono dropped.marks⟩
  · intro q kept
    exact search.candidates q ((dropped.candidates q).mp kept).1
  · intro pair listed
    exact dropped.lists pair (search.unlinked pair listed)
  intro q mem erased
  by_cases before : q ∈ tree.setBlockIndexCandidates
  · have inRound : q = bad ∨ q ∈ start.above p bad := by
      rw [← search.above]
      by_contra outside
      exact erased ((dropped.candidates q).mpr ⟨before, outside⟩)
    cases failed : (tree.index bad).nStatus.failed with
    | true => exact (search.condemned formed found dropped failed inRound).imp fun _ => .inl
    | false => exact ⟨bad, .inr (search.detached formed found dropped failed inRound)⟩
  · obtain ⟨root, condemned | detached⟩ := search.erased q mem before
    · exact ⟨root, .inl (condemned.mono dropped.marks)⟩
    · exact ⟨root, .inr (detached.mono dropped.lists)⟩

end

end

end

/-- The walk of a later round passes its assertions, as the chain was linked from the start. -/
theorem Search.findUnusable
    (linked : ∀ q ∈ start.path p, start.linked q = true ∨ (start.index q).nHeight = 0)
    : tree.findUnusable (tree.path p) = .ok (tree.unusableOn (tree.path p)) := by
  apply findUnusable_ok
  rw [search.path]
  intro q ancestor
  rw [Tree.linked, search.field (·.nChainTx), search.field (·.nHeight)]
  exact linked q ancestor

end

theorem findMostWorkLoop_ok (formed : start.WellFormed)
    (linked : ∀ p ∈ start.setBlockIndexCandidates, ∀ q ∈ start.path p,
      start.linked q = true ∨ (start.index q).nHeight = 0) {fuel} (search : Search start tree)
    (enough : tree.setBlockIndexCandidates.length < fuel)
    : ∃ result after, findMostWorkLoop fuel tree = .ok (result, after) ∧ Search start after
      ∧ (result = none → after.setBlockIndexCandidates = [])
      ∧ ∀ p, result = some p → p ∈ after.setBlockIndexCandidates
        ∧ after.unusableOn (after.path p) = none
        ∧ ∀ q ∈ after.setBlockIndexCandidates, after.worse p q = false := by
  induction fuel generalizing tree with
  | zero => cases enough
  | succ fuel ih =>
    rw [findMostWorkLoop]
    split
    next noCandidate =>
      have empty := lastCandidate_none.mp noCandidate
      exact ⟨none, tree, rfl, search, fun _ => empty, fun p absurd => (nomatch absurd)⟩
    next p last =>
      obtain ⟨mem, best⟩ := lastCandidate_some last
      rw [search.findUnusable (linked p (search.candidates p mem))]
      cases found : tree.unusableOn (tree.path p) with
      | none =>
        refine ⟨some p, tree, rfl, search, nofun, ?_⟩
        rintro _ ⟨⟩
        exact ⟨mem, found, best⟩
      | some bad =>
        have dropped := dropChain_dropped tree p bad
        have fewer := dropped.shorter mem
        exact ih (search.step formed found dropped) (by omega)

end Rounds

/-- All blocks of the chain down to the active one have data and have not failed. -/
def Usable (tree : Tree) (p : Pointer) : Prop :=
  ∀ q ∈ (tree.path p).takeWhile fun q => !tree.contains q,
    tree.hasData q = true ∧ (tree.index q).nStatus.failed = false

theorem usable_iff {p} : tree.Usable p ↔ tree.unusableOn (tree.path p) = none := by
  rw [Usable, unusableOn]
  simp [unusable, hasData, and_comm]

/-- Where the tree passes `CheckBlockIndex`, `FindMostWorkChain` returns the greatest usable
candidate. A candidate that it erases has a first unusable block on its chain. If that block
has failed, the blocks above are marked as children of a failed block; if it only misses its
data, they are registered in `mapBlocksUnlinked`.
-/
theorem findMostWorkChain_best {hashGenesisBlock : Uint256} (formed : tree.WellFormed)
    (known : ∀ p ∈ tree.setBlockIndexCandidates, p ∈ tree.blocks)
    (passed : tree.checkBlockIndex hashGenesisBlock = .ok ())
    : ∃ result after, tree.findMostWorkChain = .ok (result, after)
      ∧ (∀ p, result = some p
        ↔ p ∈ tree.setBlockIndexCandidates ∧ tree.Usable p
          ∧ ∀ q ∈ tree.setBlockIndexCandidates, tree.Usable q → tree.worse p q = false)
      ∧ ∀ p ∈ tree.setBlockIndexCandidates, p ∉ after.setBlockIndexCandidates
        → ∃ bad ∈ tree.path p, tree.contains bad = false
          ∧ (∀ q ∈ tree.above p bad, tree.contains q = false ∧ tree.unusable q = false)
          ∧ ((tree.index bad).nStatus.failed = true
              ∧ (∀ q ∈ tree.above p bad, (after.index q).nStatus.failedChild = true)
            ∨ (tree.index bad).nStatus.failed = false ∧ tree.hasData bad = false
              ∧ ∀ q ∈ tree.above p bad, ∃ parent, (tree.index q).pprev = some parent
                ∧ (parent, q) ∈ after.mapBlocksUnlinked) := by
  obtain ⟨result, after, run, search, exhausted, returned⟩ := findMostWorkLoop_ok formed
    (fun p candidate q ancestor =>
      checkBlockIndex_candidate formed passed (known p candidate) candidate ancestor)
    (.refl tree) (Nat.lt_succ_self _)
  have kept : ∀ q ∈ tree.setBlockIndexCandidates, tree.Usable q
      → q ∈ after.setBlockIndexCandidates := by
    intro q mem usable
    by_contra erased
    rw [usable_iff] at usable
    obtain ⟨bad, condemned | detached⟩ := search.erased q mem erased
    · cases usable.symm.trans condemned.found
    · cases usable.symm.trans detached.found
  have usableNow : ∀ p, after.unusableOn (after.path p) = none → tree.Usable p := by
    intro p usable
    rw [usable_iff, unusableOn, find?_eq_none]
    rw [unusableOn, find?_eq_none, search.path, funext search.contains] at usable
    intro q before
    rw [search.usable (Bool.not_eq_true _ ▸ usable q before)]
    exact Bool.false_ne_true
  have worseEq : ∀ p q, after.worse p q = tree.worse p q := by
    intro p q
    rw [Bool.eq_iff_iff, worse_iff, worse_iff, search.rank, search.rank]
  refine ⟨result, after, run, fun p => ⟨?_, ?_⟩, ?_⟩
  · intro isResult
    obtain ⟨mem, usable, best⟩ := returned p isResult
    refine ⟨search.candidates p mem, usableNow p usable, fun q candidate usable => ?_⟩
    rw [← worseEq]
    exact best q (kept q candidate usable)
  · rintro ⟨candidate, usable, greatest⟩
    have mem := kept p candidate usable
    cases found : result with
    | none =>
      rw [exhausted found] at mem
      cases mem
    | some best =>
      obtain ⟨bestMember, bestUsable, bestGreatest⟩ := returned best found
      have below := bestGreatest p mem
      have atMost := greatest best (search.candidates best bestMember) (usableNow best bestUsable)
      rw [worseEq] at below
      rw [worse_eq_false] at below atMost
      rw [tree.rank_injective (le_antisymm below atMost)]
  · intro p candidate erased
    obtain ⟨bad, condemned | detached⟩ := search.erased p candidate erased
    · obtain ⟨ancestor, inactive, -, between⟩ := unusableOn_some condemned.found
      exact ⟨bad, ancestor, inactive, between, .inl ⟨condemned.failed, condemned.marked⟩⟩
    · obtain ⟨ancestor, inactive, -, between⟩ := unusableOn_some detached.found
      exact ⟨bad, ancestor, inactive, between,
        .inr ⟨detached.notFailed, detached.missing, detached.listed⟩⟩

section Branch

/-- Three blocks, of which the first one is active and the second one has the given status. -/
def branch (nStatus : BlockStatus) (fHavePruned : Bool) : Tree where
  index
    | 1 => {
        hash := List.Vector.replicate 32 1
        nChainWork := 1
        nTx := 1
        nChainTx := 1
        nStatus := { valid := .scripts, haveData := true }
        nSequenceId := 1
      }
    | 2 => {
        hash := List.Vector.replicate 32 2
        pprev := some 1
        pskip := some 1
        nHeight := 1
        nChainWork := 2
        nTx := 1
        nChainTx := 2
        nStatus
        nSequenceId := 2
      }
    | 3 => {
        hash := List.Vector.replicate 32 3
        pprev := some 2
        pskip := some 1
        nHeight := 2
        nChainWork := 3
        nTx := 1
        nChainTx := 3
        nStatus := { valid := .transactions, haveData := true }
        nSequenceId := 3
      }
    | _ => {}
  mapBlockIndex := [(List.Vector.replicate 32 3, 3), (List.Vector.replicate 32 2, 2),
    (List.Vector.replicate 32 1, 1)]
  setBlockIndexCandidates := [1, 2, 3]
  chainActive := [some 1]
  fHavePruned

/-- The blocks of the branch as a table. -/
def branchTable (nStatus : BlockStatus) : List (Pointer × CBlockIndex) :=
  [3, 2, 1].map fun p => (p, (branch nStatus false).index p)

theorem branch_index (nStatus : BlockStatus) (fHavePruned : Bool)
    : (branch nStatus fHavePruned).index = (ofTable (branchTable nStatus)).index :=
  funext fun
    | 0 | 1 | 2 | 3 | _ + 4 => rfl

theorem branch_wellFormed (nStatus : BlockStatus) (fHavePruned : Bool)
    : (branch nStatus fHavePruned).WellFormed := by
  refine wellFormed_of_table (branch_index nStatus fHavePruned) rfl (by simp [branchTable]) ?_
  simp only [branchTable, map_cons, forall_mem_cons]
  exact ⟨rfl, rfl, rfl, forall_mem_nil _⟩

def failedBranch : Tree :=
  branch { valid := .transactions, haveData := true, failedValid := true } false

theorem findMostWorkChain_best_failed
    : failedBranch.WellFormed
      ∧ failedBranch.checkBlockIndex (List.Vector.replicate 32 1) = .ok ()
      ∧ ∃ result after, failedBranch.findMostWorkChain = .ok (result, after)
        ∧ ∀ p, result = some p
          ↔ p ∈ failedBranch.setBlockIndexCandidates ∧ failedBranch.Usable p
            ∧ ∀ q ∈ failedBranch.setBlockIndexCandidates, failedBranch.Usable q
              → failedBranch.worse p q = false := by
  have formed : failedBranch.WellFormed := branch_wellFormed _ _
  have passed : failedBranch.checkBlockIndex (List.Vector.replicate 32 1) = .ok () := by
    decide +kernel
  have known : ∀ p ∈ failedBranch.setBlockIndexCandidates, p ∈ failedBranch.blocks := by
    decide
  obtain ⟨result, after, run, best, -⟩ := findMostWorkChain_best formed known passed
  exact ⟨formed, passed, result, after, run, best⟩

def prunedBranch : Tree := branch { valid := .transactions } true

/-- The data of the second block has been pruned. It is erased with the third block for that
reason, and is not registered in `mapBlocksUnlinked`.
-/
theorem findMostWorkChain_pruned
    : prunedBranch.WellFormed
      ∧ (∀ p ∈ prunedBranch.setBlockIndexCandidates, p ∈ prunedBranch.blocks)
      ∧ prunedBranch.checkBlockIndex (List.Vector.replicate 32 1) = .ok ()
      ∧ ∃ result after, prunedBranch.findMostWorkChain = .ok (result, after)
        ∧ 2 ∈ prunedBranch.setBlockIndexCandidates ∧ 2 ∉ after.setBlockIndexCandidates
        ∧ prunedBranch.hasData 2 = false ∧ (prunedBranch.index 2).nStatus.failed = false
        ∧ ∀ parent, (parent, 2) ∉ after.mapBlocksUnlinked := by
  refine ⟨branch_wellFormed _ _, by decide, by decide +kernel, some 1, _, rfl, by decide,
    by decide, rfl, rfl, ?_⟩
  intro parent listed
  cases mem_singleton.mp listed

end Branch

end Tree

end Resistance.BlockTree

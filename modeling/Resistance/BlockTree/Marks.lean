import Resistance.BlockTree.Switching

/-! `InvalidateBlock` and `ReconsiderBlock` keep the invariant of the block tree. The latter
does so only where every ancestor whose mark it clears is still a candidate if it should be
one.
-/

namespace Resistance.BlockTree

open List Primitives Lib.Forest Lib.Checks CBlockIndex

namespace Tree

variable {start tree after : Tree}

theorem SameLinks.candidates (same : SameLinks tree after) (candidates : List Pointer)
    : SameLinks tree { after with setBlockIndexCandidates := candidates } :=
  ⟨same.mapBlockIndex, same.unlinked, same.entry, same.haveData, same.outside⟩

/-- What has changed while the active chain is disconnected down to the parent of `p`. -/
structure Invalidating (start : Tree) (p : Pointer) (tree : Tree) (tip : Option Pointer) : Prop
    where
  same : SameLinks start tree
  level : ∀ q, (tree.index q).nStatus.valid = (start.index q).nStatus.valid
  active : tree.ActiveIs tip
  unfailed : ∀ t, tip = some t → start.linked t = true
    ∧ ∀ q ∈ start.path t, q ≠ p → (tree.index q).nStatus.failed = false
  kept : ∀ q ∈ tree.setBlockIndexCandidates, q ∈ start.setBlockIndexCandidates

variable {p q : Pointer}

theorem mem_eraseCandidate (candidate : q ∈ (tree.eraseCandidate p).setBlockIndexCandidates)
    : q ∈ tree.setBlockIndexCandidates :=
  (mem_filter.mp candidate).1

/-- The block itself is marked first. -/
theorem Sound.invalidating (sound : Sound tree) (mem : p ∈ tree.blocks)
    : ∃ tip, Invalidating tree p
        ((tree.modify p markFailedValid).eraseCandidate p) tip := by
  obtain ⟨tip, active, unfailed⟩ := sound.active
  have marked := sameLinks_modify tree (f := markFailedValid) mem
    (fun _ => rfl) fun _ => rfl
  have same := marked.candidates ((tree.eraseCandidate p).setBlockIndexCandidates)
  refine ⟨tip, same, modify_field (·.nStatus.valid), same.activeIs rfl active,
    fun t isTip => ?_, fun q => mem_eraseCandidate⟩
  obtain ⟨isLinked, clean⟩ := unfailed t isTip
  refine ⟨isLinked, fun q ancestor ne => ?_⟩
  exact (congrArg (·.nStatus.failed) (index_modify_ne tree _ ne)).trans (clean q ancestor)

/-- A block of the active chain is marked and disconnected. -/
theorem Invalidating.disconnect {t} (sound : Sound start)
    (invalidating : Invalidating start p tree (some t))
    : Invalidating start p
        (((tree.modify t markFailedChild).eraseCandidate t).setTip
          (start.index t).pprev)
        (start.index t).pprev := by
  have formed := sound.formed
  have before := invalidating.same
  have mem : t ∈ tree.blocks := invalidating.active.1
  have inside : t ∈ start.blocks := before.blocks ▸ mem
  have marked := sameLinks_modify tree (f := markFailedChild) mem
    (fun _ => rfl) fun _ => rfl
  have same := before.trans
    (marked.candidates (tree.eraseCandidate t).setBlockIndexCandidates)
  have active := (marked.candidates (tree.eraseCandidate t).setBlockIndexCandidates).activeIs rfl
    invalidating.active
  have known : ∀ q, (start.index t).pprev = some q → q ∈ tree.blocks :=
    fun q child => before.blocks.symm ▸ formed.closed t q inside child
  have lower := active.setTip (same.wellFormed formed) known
  refine ⟨same.trans (sameLinks_chainActive _ _),
    fun q => (modify_field (·.nStatus.valid) q).trans (invalidating.level q), lower,
    fun parent child => ?_, fun q still => invalidating.kept q (mem_eraseCandidate still)⟩
  obtain ⟨isLinked, clean⟩ := invalidating.unfailed t rfl
  have below : ∀ q ∈ start.path parent, q ∈ start.path t := by
    intro q ancestor
    exact formed.graded.mem_of_child child ancestor
  refine ⟨sound.linked_path inside isLinked (below parent (formed.graded.self_mem parent)),
    fun q ancestor ne => ?_⟩
  have notTip : q ≠ t := by
    rintro rfl
    exact formed.graded.ne_of_child child ancestor rfl
  exact (congrArg (·.nStatus.failed) (index_modify_ne tree _ notTip)).trans
    (clean q (below q ancestor) ne)

theorem invalidateLoop_ok {tip fuel} (sound : Sound start)
    (invalidating : Invalidating start p tree tip) (run : invalidateLoop p fuel tree = .ok after)
    : ∃ tip', Invalidating start p after tip' ∧ after.contains p = false := by
  induction fuel generalizing tree tip with
  | zero => cases run
  | succ fuel ih =>
    have formed := invalidating.same.wellFormed sound.formed
    rw [invalidateLoop] at run
    split at run
    next stop =>
      cases run
      exact ⟨tip, invalidating, by simpa using stop⟩
    next =>
      rw [invalidating.active.tip formed] at run
      cases tip with
      | none => cases run
      | some t =>
        obtain ⟨middle, disconnected, rest⟩ := bind_ok.mp run
        obtain ⟨t', isTip, rfl⟩ := disconnectTip_ok disconnected
        have same : some t' = some t := isTip.symm.trans (invalidating.active.tip formed)
        cases same
        have child : (((tree.modify t markFailedChild).eraseCandidate t).index
            t).pprev = (start.index t).pprev := by
          rw [← invalidating.same.field (·.pprev)]
          exact modify_field (·.pprev) t
        rw [child] at rest
        exact ih (invalidating.disconnect sound) rest

/-- Every block that is connectable and not worse than the tip is inserted again. -/
theorem foldl_refill (tip : Pointer) (blocks : List Pointer) (tree : Tree)
    : ∃ candidates, blocks.foldl (fun tree p =>
          if tree.connectable p && !tree.worse p tip then tree.insertCandidate p else tree) tree
        = { tree with setBlockIndexCandidates := candidates }
      ∧ ∀ q, q ∈ candidates ↔ q ∈ tree.setBlockIndexCandidates
        ∨ q ∈ blocks ∧ tree.connectable q = true ∧ tree.worse q tip = false := by
  induction blocks generalizing tree with
  | nil => exact ⟨tree.setBlockIndexCandidates, rfl, fun q => by simp⟩
  | cons p blocks ih =>
    rw [foldl_cons]
    by_cases inserted : (tree.connectable p && !tree.worse p tip) = true
    · rw [if_pos inserted]
      obtain ⟨candidates, folded, listed⟩ := ih (tree.insertCandidate p)
      refine ⟨candidates, folded, fun q => ?_⟩
      have good : tree.connectable p = true ∧ tree.worse p tip = false := by
        simpa using inserted
      rw [mem_cons]
      refine ((listed q).trans (or_congr mem_insert_iff Iff.rfl)).trans ?_
      by_cases self : q = p
      · simp [self, good]
      · simp only [self, false_or]
        rfl
    · rw [if_neg inserted]
      obtain ⟨candidates, folded, listed⟩ := ih tree
      refine ⟨candidates, folded, fun q => ?_⟩
      rw [listed]
      by_cases self : q = p
      · have bad : ¬ (tree.connectable p = true ∧ tree.worse p tip = false) := by
          simpa using inserted
        simp [self, bad]
      · simp [self]

theorem Sound.connectable (sound : Sound start) (same : SameLinks start tree)
    (level : ∀ q, (tree.index q).nStatus.valid = (start.index q).nStatus.valid)
    (mem : p ∈ start.blocks) (isLinked : start.linked p = true)
    (notFailed : (tree.index p).nStatus.failed = false)
    : tree.connectable p = true := by
  have data := sound.linking.data p mem isLinked
  have received := sound.received p mem data
  rw [Tree.connectable, same.linked, isLinked, BlockStatus.isValid, notFailed, level]
  simpa using received

/-- `InvalidateBlock` keeps the invariant: what it erases is inserted again where needed. -/
theorem Sound.invalidateBlock (sound : Sound tree) (mem : p ∈ tree.blocks)
    (run : tree.invalidateBlock p = .ok after)
    : Sound after := by
  obtain ⟨middle, looped, rest⟩ := bind_ok.mp run
  obtain ⟨_, begun⟩ := sound.invalidating mem
  obtain ⟨tip, invalidating, notActive⟩ := invalidateLoop_ok sound begun looped
  have same := invalidating.same
  have formed := same.wellFormed sound.formed
  rw [invalidating.active.tip formed] at rest
  cases tip with
  | none => cases rest
  | some t =>
    obtain ⟨_, -, result⟩ := bind_ok.mp rest
    cases result
    obtain ⟨candidates, refilled, listed⟩ := foldl_refill t middle.blocks middle
    have refill : middle.refillCandidates t
        = { middle with setBlockIndexCandidates := candidates } := refilled
    rw [refill]
    have final : SameLinks tree
        ({ middle with setBlockIndexCandidates := candidates }.raiseBestInvalid p) :=
      ⟨same.mapBlockIndex, same.unlinked, same.entry, same.haveData, same.outside⟩
    have activeNow := invalidating.active
    obtain ⟨isLinked, clean⟩ := invalidating.unfailed t rfl
    have level : ∀ q, (tree.index q).nStatus.valid.level
        ≤ (middle.index q).nStatus.valid.level :=
      fun q => le_of_eq (congrArg BlockValidity.level (invalidating.level q).symm)
    refine final.sound sound level ⟨⟨some t, activeNow, ?_⟩, ?_, ?_⟩
    · rintro _ ⟨⟩
      rw [final.linked, final.path]
      refine ⟨isLinked, fun q ancestor => clean q ancestor ?_⟩
      rintro rfl
      have contained : middle.contains q = true :=
        (activeNow.contains_iff formed).mpr (same.path t ▸ ancestor)
      rw [contained] at notActive
      cases notActive
    · intro q candidate
      rw [final.blocks, final.linked]
      rcases (listed q).mp candidate with before | ⟨inside, connects, -⟩
      · exact sound.candidates q (invalidating.kept q before)
      · rw [Tree.connectable, Bool.and_eq_true] at connects
        exact ⟨same.blocks ▸ inside, (same.linked q).symm.trans connects.2⟩
    · intro q inside linkedNow notFailed asGood
      rw [final.blocks] at inside
      rw [final.linked] at linkedNow
      have tipNow : middle.tip = some t := activeNow.tip formed
      have notWorse : middle.worse q t = false :=
        worse_eq_false.mpr (notWorseThanTip_iff.mp asGood t tipNow)
      refine (listed q).mpr (.inr ⟨same.blocks.symm ▸ inside, ?_, notWorse⟩)
      exact sound.connectable same invalidating.level inside linkedNow notFailed

/-- What has changed while the marks of the descendants of `p` are cleared. -/
structure Reconsidering (start : Tree) (p tip : Pointer) (done : List Pointer) (tree : Tree)
    : Prop where
  same : SameLinks start tree
  level : ∀ q, (tree.index q).nStatus.valid = (start.index q).nStatus.valid
  chainActive : tree.chainActive = start.chainActive
  failed : ∀ q, (tree.index q).nStatus.failed = true
    ↔ (start.index q).nStatus.failed = true ∧ ¬ (q ∈ done ∧ p ∈ start.path q)
  kept : ∀ q ∈ start.setBlockIndexCandidates, q ∈ tree.setBlockIndexCandidates
  inserted : ∀ q ∈ done, p ∈ start.path q → (start.index q).nStatus.failed = true
    → start.linked q = true → start.worse tip q = true → q ∈ tree.setBlockIndexCandidates
  added : ∀ q ∈ tree.setBlockIndexCandidates, q ∈ start.setBlockIndexCandidates
    ∨ p ∈ start.path q ∧ q ∈ start.blocks ∧ start.linked q = true

theorem Reconsidering.refl (tree : Tree) (p tip : Pointer) : Reconsidering tree p tip [] tree where
  same := .refl tree
  level := fun _ => rfl
  chainActive := rfl
  failed := by
    simp
  kept := fun _ => id
  inserted := nofun
  added := fun _ => .inl

/-- A round of the first loop leaves valid blocks and those on other branches alone. -/
theorem reconsiderDescendant_cases (tree : Tree) (p tip q : Pointer)
    : ((tree.index q).nStatus.isValid .transactions = true
          ∨ tree.getAncestor q (tree.index p).nHeight ≠ some p)
        ∧ reconsiderDescendant p tip tree q = tree
      ∨ tree.getAncestor q (tree.index p).nHeight = some p
        ∧ ∃ candidates best, reconsiderDescendant p tip tree q
            = { tree.modify q clearFailed with
                setBlockIndexCandidates := candidates
                pindexBestInvalid := best }
          ∧ ∀ r, r ∈ candidates ↔ r ∈ tree.setBlockIndexCandidates
            ∨ r = q ∧ (tree.modify q clearFailed).connectable q = true
              ∧ (tree.modify q clearFailed).worse tip q = true := by
  rw [reconsiderDescendant]
  split
  next chosen =>
    rw [Bool.and_eq_true, decide_eq_true_eq] at chosen
    refine .inr ⟨chosen.2, ?_⟩
    dsimp only
    split
    next better =>
      rw [Bool.and_eq_true] at better
      refine ⟨_, _, rfl, fun r => ?_⟩
      rw [insertCandidate, mem_insert_iff, and_iff_left better, or_comm]
      exact Iff.rfl
    next worse =>
      rw [Bool.and_eq_true] at worse
      refine ⟨_, _, rfl, fun r => ?_⟩
      rw [or_iff_left fun absurd => worse absurd.2]
      exact Iff.rfl
  next skipped =>
    refine .inl ⟨?_, rfl⟩
    rw [Bool.and_eq_true, decide_eq_true_eq, not_and_or, Bool.not_eq_true', Bool.not_eq_false]
      at skipped
    exact skipped

theorem CBlockIndex.failed_clearFailed (entry : CBlockIndex)
    : entry.clearFailed.nStatus.failed = false := rfl

section

variable {tip : Pointer} {done : List Pointer} (sound : Sound start)
  (reconsidering : Reconsidering start p tip done tree)
include sound reconsidering

theorem Reconsidering.step (mem : q ∈ start.blocks)
    : Reconsidering start p tip (q :: done) (reconsiderDescendant p tip tree q) := by
  have same := reconsidering.same
  have formed := same.wellFormed sound.formed
  have descends : tree.getAncestor q (tree.index p).nHeight = some p ↔ p ∈ start.path q := by
    rw [getAncestor_eq_iff formed (same.skips sound.skips), same.path]
  rcases reconsiderDescendant_cases tree p tip q with
    ⟨skipped, unchanged⟩ | ⟨chosen, candidates, best, changed, listed⟩
  · rw [unchanged]
    -- A descendant that is skipped has no mark any more.
    have cleared : p ∈ start.path q → (start.index q).nStatus.failed = true → q ∈ done := by
      intro ancestor wasFailed
      by_contra notDone
      have still := (reconsidering.failed q).mpr ⟨wasFailed, fun both => notDone both.1⟩
      rcases skipped with valid | other
      · rw [BlockStatus.isValid, still] at valid
        cases valid
      · exact other (descends.mpr ancestor)
    refine ⟨same, reconsidering.level, reconsidering.chainActive, fun r => ?_, reconsidering.kept,
      fun r isDone ancestor wasFailed => ?_, reconsidering.added⟩
    · rw [reconsidering.failed]
      by_cases self : r = q
      · grind
      · simp [self]
    · rcases mem_cons.mp isDone with rfl | before
      · exact reconsidering.inserted r (cleared ancestor wasFailed) ancestor wasFailed
      · exact reconsidering.inserted r before ancestor wasFailed
  · rw [descends] at chosen
    rw [changed]
    have inside : q ∈ tree.blocks := same.blocks.symm ▸ mem
    have marked := same.trans (sameLinks_modify tree (f := clearFailed) inside
      (fun _ => rfl) fun _ => rfl)
    have self := index_modify_self tree q clearFailed
    have level : ∀ r, ((tree.modify q clearFailed).index r).nStatus.valid
        = (start.index r).nStatus.valid :=
      fun r => (modify_field (·.nStatus.valid) r).trans (reconsidering.level r)
    refine ⟨⟨marked.mapBlockIndex, marked.unlinked, marked.entry, marked.haveData, marked.outside⟩,
      level, reconsidering.chainActive, fun r => ?_,
      fun r before => (listed r).mpr (.inl (reconsidering.kept r before)),
      fun r isDone ancestor wasFailed isLinked better => (listed r).mpr ?_, fun r candidate => ?_⟩
    · by_cases ne : r = q
      · subst ne
        rw [self, CBlockIndex.failed_clearFailed]
        simp [chosen]
      · rw [index_modify_ne tree _ ne, reconsidering.failed]
        simp [ne]
    · rcases mem_cons.mp isDone with rfl | before
      · refine .inr ⟨rfl, sound.connectable marked level mem isLinked ?_, ?_⟩
        · rw [self, CBlockIndex.failed_clearFailed]
        · rw [marked.worse, better]
      · exact .inl (reconsidering.inserted r before ancestor wasFailed isLinked better)
    · rcases (listed r).mp candidate with before | ⟨rfl, connects, -⟩
      · exact reconsidering.added r before
      · rw [Tree.connectable, Bool.and_eq_true] at connects
        exact .inr ⟨chosen, mem, (marked.linked r).symm.trans connects.2⟩

theorem foldl_reconsiderDescendant (blocks : List Pointer) (known : ∀ q ∈ blocks, q ∈ start.blocks)
    : Reconsidering start p tip (blocks.reverse ++ done)
        (blocks.foldl (reconsiderDescendant p tip) tree) := by
  induction blocks generalizing tree done with
  | nil => exact reconsidering
  | cons q blocks ih =>
    have stepped := reconsidering.step sound (known q mem_cons_self)
    rw [reverse_cons, append_assoc]
    exact ih stepped fun r mem => known r (mem_cons_of_mem q mem)

end

/-- The second loop clears the marks of all ancestors, and does nothing else. -/
theorem foldl_clearFailed (ancestors : List Pointer) (tree : Tree)
    (known : ∀ q ∈ ancestors, q ∈ tree.blocks)
    : ∃ index, ancestors.foldl (fun tree q => tree.modify q clearFailed) tree
          = { tree with index }
      ∧ SameLinks tree { tree with index }
      ∧ (∀ q, (index q).nStatus.valid = (tree.index q).nStatus.valid)
      ∧ ∀ q, (index q).nStatus.failed = true
        ↔ (tree.index q).nStatus.failed = true ∧ q ∉ ancestors := by
  induction ancestors generalizing tree with
  | nil => exact ⟨tree.index, rfl, .refl tree, fun _ => rfl, fun q => by simp⟩
  | cons p ancestors ih =>
    have marked := sameLinks_modify tree (f := clearFailed)
      (known p mem_cons_self) (fun _ => rfl) fun _ => rfl
    obtain ⟨index, folded, same, level, failed⟩ := ih (tree.modify p clearFailed)
      fun q mem => known q (mem_cons_of_mem p mem)
    refine ⟨index, folded, marked.trans same,
      fun q => (level q).trans (modify_field (·.nStatus.valid) q), fun q => ?_⟩
    rw [failed]
    by_cases ne : q = p
    · subst ne
      rw [index_modify_self, CBlockIndex.failed_clearFailed]
      simp
    · rw [index_modify_ne tree _ ne]
      simp [ne]

/-- What `ReconsiderBlock` does. -/
structure Reconsidered (start : Tree) (p tip : Pointer) (tree : Tree) : Prop where
  same : SameLinks start tree
  level : ∀ q, (tree.index q).nStatus.valid = (start.index q).nStatus.valid
  chainActive : tree.chainActive = start.chainActive
  failed : ∀ q ∈ start.blocks, (tree.index q).nStatus.failed = true
    ↔ (start.index q).nStatus.failed = true ∧ p ∉ start.path q ∧ q ∉ start.path p
  kept : ∀ q ∈ start.setBlockIndexCandidates, q ∈ tree.setBlockIndexCandidates
  inserted : ∀ q ∈ start.blocks, p ∈ start.path q → (start.index q).nStatus.failed = true
    → start.linked q = true → start.worse tip q = true → q ∈ tree.setBlockIndexCandidates
  added : ∀ q ∈ tree.setBlockIndexCandidates, q ∈ start.setBlockIndexCandidates
    ∨ p ∈ start.path q ∧ q ∈ start.blocks ∧ start.linked q = true

section

variable (sound : Sound tree) (mem : p ∈ tree.blocks)
include sound mem

theorem Sound.reconsiderBlock_ok (run : tree.reconsiderBlock p = .ok after)
    : ∃ tip, tree.tip = some tip ∧ Reconsidered tree p tip after := by
  rw [Tree.reconsiderBlock] at run
  split at run
  next => cases run
  next tip isTip =>
    refine ⟨tip, isTip, ?_⟩
    cases run
    have cleared := foldl_reconsiderDescendant sound (.refl tree p tip) tree.blocks fun _ => id
    rw [append_nil] at cleared
    have known : ∀ q ∈ (tree.blocks.foldl (reconsiderDescendant p tip) tree).path p,
        q ∈ (tree.blocks.foldl (reconsiderDescendant p tip) tree).blocks := by
      intro q ancestor
      rw [cleared.same.path] at ancestor
      rw [cleared.same.blocks]
      exact sound.formed.path_mem mem ancestor
    obtain ⟨index, folded, same, level, failed⟩ := foldl_clearFailed _ _ known
    rw [folded]
    refine ⟨cleared.same.trans same, fun q => (level q).trans (cleared.level q),
      cleared.chainActive, fun q inside => ?_, cleared.kept, fun q inside => ?_, cleared.added⟩
    · refine (failed q).trans ?_
      rw [cleared.failed, cleared.same.path, and_assoc]
      simp [inside]
    · exact cleared.inserted q (mem_reverse.mpr inside)

/-- `ReconsiderBlock` keeps the invariant where the ancestors whose marks it clears are still
candidates if they should be.
-/
theorem Sound.reconsiderBlock
    (still : ∀ q ∈ tree.path p, q ≠ p → (tree.index q).nStatus.failed = true
      → tree.linked q = true → tree.notWorseThanTip q = true → q ∈ tree.setBlockIndexCandidates)
    (run : tree.reconsiderBlock p = .ok after)
    : Sound after := by
  obtain ⟨t, isTip, reconsidered⟩ := sound.reconsiderBlock_ok mem run
  have same := reconsidered.same
  obtain ⟨tip, active, unfailed⟩ := sound.active
  cases (active.tip sound.formed).symm.trans isTip
  obtain ⟨isLinked, clean⟩ := unfailed t rfl
  have level : ∀ q, (tree.index q).nStatus.valid.level ≤ (after.index q).nStatus.valid.level :=
    fun q => le_of_eq (congrArg BlockValidity.level (reconsidered.level q).symm)
  have activeNow := same.activeIs reconsidered.chainActive active
  refine same.sound sound level ⟨⟨some t, activeNow, ?_⟩, ?_, ?_⟩
  · rintro _ ⟨⟩
    rw [same.linked, same.path]
    refine ⟨isLinked, fun q ancestor => ?_⟩
    by_contra marked
    rw [Bool.not_eq_false] at marked
    have inside := sound.formed.path_mem active.1 ancestor
    have before := ((reconsidered.failed q inside).mp marked).1
    rw [clean q ancestor] at before
    cases before
  · intro q candidate
    rw [same.blocks, same.linked]
    rcases reconsidered.added q candidate with before | ⟨-, inside, linkedNow⟩
    · exact sound.candidates q before
    · exact ⟨inside, linkedNow⟩
  · intro q inside linkedNow notFailed asGood
    rw [same.blocks] at inside
    rw [same.linked] at linkedNow
    rw [same.notWorseThanTip reconsidered.chainActive] at asGood
    cases wasFailed : (tree.index q).nStatus.failed with
    | false => exact reconsidered.kept q (sound.complete q inside linkedNow wasFailed asGood)
    | true =>
      by_cases descends : p ∈ tree.path q
      · refine reconsidered.inserted q inside descends wasFailed linkedNow ?_
        rw [worse_iff]
        refine lt_of_le_of_ne (notWorseThanTip_iff.mp asGood t isTip) fun equal => ?_
        cases tree.rank_injective equal
        rw [clean t (sound.formed.graded.self_mem t)] at wasFailed
        cases wasFailed
      · have ancestor : q ∈ tree.path p := by
          by_contra other
          have marked := (reconsidered.failed q inside).mpr ⟨wasFailed, descends, other⟩
          rw [notFailed] at marked
          cases marked
        refine reconsidered.kept q (still q ancestor ?_ wasFailed linkedNow asGood)
        rintro rfl
        exact descends (sound.formed.graded.self_mem q)

/-- Otherwise an ancestor without marks that is linked and as good as the tip is no candidate. -/
theorem Sound.reconsiderBlock_loses (ancestor : q ∈ tree.path p) (ne : q ≠ p)
    (isLinked : tree.linked q = true) (asGood : tree.notWorseThanTip q = true)
    (erased : q ∉ tree.setBlockIndexCandidates) (run : tree.reconsiderBlock p = .ok after)
    : q ∈ after.blocks
      ∧ (∀ r ∈ after.path q, after.hasData r = true ∧ (after.index r).nStatus.failed = false)
      ∧ after.notWorseThanTip q = true ∧ q ∉ after.setBlockIndexCandidates := by
  have formed := sound.formed
  obtain ⟨t, isTip, reconsidered⟩ := sound.reconsiderBlock_ok mem run
  have same := reconsidered.same
  have inside := formed.path_mem mem ancestor
  refine ⟨same.blocks.symm ▸ inside, fun r below => ?_, ?_, fun candidate => ?_⟩
  · rw [same.path] at below
    rw [same.haveData]
    refine ⟨(sound.linking.linked_iff formed inside).mp isLinked r below, ?_⟩
    by_contra marked
    rw [Bool.not_eq_false, reconsidered.failed r (formed.path_mem inside below)] at marked
    exact marked.2.2 (formed.graded.ancestor_trans ancestor below)
  · rw [same.notWorseThanTip reconsidered.chainActive]
    exact asGood
  rcases reconsidered.added q candidate with before | ⟨above, -⟩
  · exact erased before
  · have lower := formed.graded.height_le above
    have upper := formed.graded.height_le ancestor
    exact ne (formed.graded.eq_of_height_eq ancestor (formed.graded.self_mem p)
      (Nat.le_antisymm upper lower))

end

end Tree

end Resistance.BlockTree

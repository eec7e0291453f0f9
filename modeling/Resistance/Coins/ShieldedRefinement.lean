import Resistance.Coins.ShieldedCache
import Resistance.Lib.Simulation
import Resistance.Validation.Environment

/-! A stack of caches answers for each shielded pool like a set of nullifiers, a map from roots to
trees and a best root that are changed directly, unless a cache is flushed that does not know its
best anchor.
-/

namespace Resistance.Coins

open Primitives Consensus Zcash Lib Lib.Checks Lib.Simulation AList FiniteMap Function Option
  PoolView

namespace PoolView

variable {ops : MerkleHash Uint256} {depth : Nat} {trees : Set MerkleTree}
variable {view base filled : PoolView} {here : PoolCache} {state : ShieldedState}

/-- The view gives the answers of the plain state. -/
structure Related (ops : MerkleHash Uint256) (depth : Nat) (trees : Set MerkleTree)
    (view : PoolView) (state : ShieldedState) : Prop where
  consistent : view.Consistent ops depth trees
  nullifiers : ∀ nullifier, view.nullifierAt nullifier = state.getNullifier nullifier
  anchors : ∀ rt, view.anchorAt ops depth rt = state.getAnchorAt rt
  best : view.bestAnchor ops depth = state.hashAnchor

theorem Related.of_fills (related : Related ops depth trees view state)
    (fills : Fills ops depth trees filled view)
    : Related ops depth trees filled state where
  consistent := fills.consistent
  nullifiers nullifier := by rw [fills.same.nullifierAt, related.nullifiers]
  anchors rt := by rw [fills.same.anchorAt, related.anchors]
  best := by rw [fills.same.bestAnchor, related.best]

/-! Nullifiers and anchors. -/

theorem lookup_setNullifiers (revealed : List Uint256) (spent : Bool)
    (cacheNullifiers : FiniteMap Uint256 CNullifiersCacheEntry) (nullifier : Uint256)
    : (revealed.foldl (fun cacheNullifiers nullifier =>
        insert nullifier ⟨spent, true⟩ cacheNullifiers) cacheNullifiers).lookup nullifier
      = if nullifier ∈ revealed then some ⟨spent, true⟩ else cacheNullifiers.lookup nullifier := by
  induction revealed generalizing cacheNullifiers with
  | nil => rfl
  | cons first revealed ih =>
    rw [List.foldl_cons, ih]
    by_cases later : nullifier ∈ revealed
    · rw [if_pos later, if_pos (List.mem_cons_of_mem first later)]
    rw [if_neg later]
    by_cases same : nullifier = first
    · subst same
      rw [lookup_insert, if_pos List.mem_cons_self]
    · simp [same, later]

theorem Related.setNullifiers
    (related : Related ops depth trees (.cache here base) state) (revealed : List Uint256)
    (spent : Bool)
    : ∃ next, (cache here base).setNullifiers revealed spent = .ok next
      ∧ Related ops depth trees next (state.setNullifiers revealed spent) := by
  obtain ⟨⟨below, nullifiers, anchors⟩, same, sameAnchors, best⟩ := related
  refine ⟨_, rfl, ⟨below, ?_, anchors⟩, ?_, sameAnchors, best⟩
  · intro nullifier entry found clean
    rw [lookup_setNullifiers] at found
    split at found
    next =>
      cases found
      cases clean
    next => exact nullifiers nullifier entry found clean
  · intro nullifier
    have before := same nullifier
    simp only [nullifierAt, ShieldedState.getNullifier] at before ⊢
    rw [lookup_setNullifiers]
    by_cases listed : nullifier ∈ revealed
    · cases spent <;> simp [ShieldedState.setNullifiers, listed]
    · rw [if_neg listed, before]
      cases spent <;> simp [ShieldedState.setNullifiers, listed]

variable {rt newrt : Uint256} {entry : CAnchorsCacheEntry}

/-- A dirty entry for an anchor, and a new best anchor. -/
theorem Consistent.edit (consistent : (cache here base).Consistent ops depth trees)
    (known : entry.tree ∈ trees) (rooted : entry.tree.root ops depth = rt)
    (kept : rt = ops.emptyRoot depth → entry.entered = true) (dirty : entry.dirty = true)
    : (cache { here with
        anchors := here.anchors.insert rt entry, hashAnchor := newrt } base).Consistent
        ops depth trees := by
  obtain ⟨below, nullifiers, anchors⟩ := consistent
  refine ⟨below, nullifiers, ?_⟩
  intro other cached found
  rcases FiniteMap.lookup_insert_cases found with ⟨rfl, rfl⟩ | ⟨-, before⟩
  · refine ⟨known, rooted, kept, ?_⟩
    intro clean
    rw [dirty] at clean
    cases clean
  · exact anchors other cached before

theorem anchorAt_edit (other : Uint256)
    : (cache { here with
        anchors := here.anchors.insert rt entry, hashAnchor := newrt } base).anchorAt
        ops depth other
      = if other = rt then entry.found
        else (cache here base).anchorAt ops depth other := by
  simp only [anchorAt]
  split
  next same =>
    subst same
    rw [lookup_insert, elim_some]
  next differs => rw [lookup_insert_ne differs]

theorem bestAnchor_edit {anchors} (notNull : newrt ≠ .null)
    : (cache { here with anchors, hashAnchor := newrt } base).bestAnchor ops depth
      = newrt := by
  simp only [bestAnchor, if_neg notNull]

/-- A cache that is asked for its best anchor gives that of the state, and stays a cache. -/
theorem Related.getBestAnchor (related : Related ops depth trees (.cache here base) state)
    : ∃ here' base', (cache here base).getBestAnchor ops depth
        = (state.hashAnchor, .cache here' base')
      ∧ Fills ops depth trees (.cache here' base') (.cache here base) := by
  obtain ⟨answer, fills⟩ := related.consistent.getBestAnchor
  obtain ⟨here', base', shape⟩ :
      ∃ here' base', ((cache here base).getBestAnchor ops depth).2 = .cache here' base' := by
    rw [PoolView.getBestAnchor]
    split
    · exact ⟨_, _, rfl⟩
    · exact ⟨_, _, rfl⟩
  rw [shape] at fills
  exact ⟨here', base', Prod.ext (answer.trans related.best) shape, fills⟩

variable {tree : MerkleTree} {parent : PoolCache} {grandparent : PoolView}

/-- After it was found, an anchor has an entry in the cache. -/
theorem getAnchorAt_cache (found : ((cache here base).getAnchorAt ops depth rt).1 = some tree)
    : ∃ here' base' entry, ((cache here base).getAnchorAt ops depth rt).2
        = .cache here' base'
      ∧ here'.anchors.lookup rt = some entry := by
  rw [getAnchorAt] at found ⊢
  cases cached : here.anchors.lookup rt with
  | some entry => exact ⟨here, base, entry, rfl, cached⟩
  | none =>
    rw [cached] at found
    cases asked : base.getAnchorAt ops depth rt with
    | mk answer filled =>
      simp only [asked] at found ⊢
      cases answer with
      | none => cases found
      | some tree => exact ⟨_, _, _, rfl, lookup_insert _⟩

theorem Related.pushAnchor (ok : TreesOk ops depth trees) (known : tree ∈ trees)
    (related : Related ops depth trees (.cache here base) state)
    : ∃ next, (cache here base).pushAnchor ops depth tree = .ok next
      ∧ Related ops depth trees next (state.pushAnchor ops depth tree) := by
  obtain ⟨here', base', asked, fills⟩ := related.getBestAnchor
  have filledRelated := related.of_fills fills
  simp only [PoolView.pushAnchor, asked, ShieldedState.pushAnchor]
  split
  next differs =>
    refine ⟨_, rfl, ?_⟩
    refine ⟨fills.consistent.edit known rfl (fun _ => rfl) rfl, filledRelated.nullifiers, ?_,
      bestAnchor_edit (ok.notNull tree known)⟩
    intro rt
    rw [anchorAt_edit, ShieldedState.getAnchorAt]
    split
    next same =>
      subst same
      rw [lookup_insert]
      rfl
    next other =>
      rw [lookup_insert_ne other]
      exact filledRelated.anchors rt
  next => exact ⟨_, rfl, filledRelated⟩

/-- The assertion of `PopAnchor` holds, and it does not remove the empty root. -/
def CanPop (ops : MerkleHash Uint256) (depth : Nat) (view : PoolView) (newrt : Uint256) : Prop :=
  view.bestAnchor ops depth = newrt
  ∨ (view.anchorAt ops depth (view.bestAnchor ops depth)).isSome = true
    ∧ view.bestAnchor ops depth ≠ ops.emptyRoot depth

theorem Related.popAnchor (ok : TreesOk ops depth trees) (notNull : newrt ≠ .null)
    (related : Related ops depth trees (.cache here base) state)
    (can : (cache here base).CanPop ops depth newrt)
    : ∃ next popped, (cache here base).popAnchor ops depth newrt = .ok next
      ∧ state.popAnchor newrt = .ok popped ∧ Related ops depth trees next popped := by
  obtain ⟨here', base', asked, fills⟩ := related.getBestAnchor
  have filledRelated := related.of_fills fills
  rw [CanPop, related.best] at can
  rw [PoolView.popAnchor, asked]
  simp only [ShieldedState.popAnchor]
  generalize state.hashAnchor = currentRoot at can
  by_cases same : currentRoot = newrt
  · rw [if_neg (not_not.mpr same), if_neg (not_not.mpr same)]
    exact ⟨_, _, rfl, rfl, filledRelated⟩
  obtain ⟨present, notEmpty⟩ := can.resolve_left same
  rw [if_pos same, if_pos same]
  obtain ⟨tree, there⟩ := isSome_iff_exists.mp present
  obtain ⟨found, fillsAnchor⟩ := fills.consistent.getAnchorAt ok currentRoot
  rw [fills.same.anchorAt, there] at found
  obtain ⟨top, below, entry, shape, cached⟩ := getAnchorAt_cache found
  have brought := filledRelated.of_fills fillsAnchor
  generalize (cache here' base').getAnchorAt ops depth currentRoot = got
    at found shape brought
  obtain ⟨gotTree, gotView⟩ := got
  subst found shape
  obtain ⟨_, _, entries⟩ := brought.consistent
  have entryOk := entries currentRoot entry cached
  have inState : (state.getAnchorAt currentRoot).isNone = false := by
    rw [← related.anchors, there]
    rfl
  refine ⟨_, _, rfl, bind_ok.mpr ⟨(), throwIf_ok.mpr (by simp [inState]), rfl⟩, ?_⟩
  simp only [cached]
  refine ⟨brought.consistent.edit entryOk.known entryOk.rooted
    (fun isEmpty => absurd isEmpty notEmpty) rfl, brought.nullifiers, ?_,
    bestAnchor_edit notNull⟩
  intro rt
  rw [anchorAt_edit, ShieldedState.getAnchorAt]
  split
  next here =>
    subst here
    rw [lookup_erase]
    rfl
  next other =>
    rw [lookup_erase_ne other]
    exact brought.anchors rt

/-! Flushing. -/

/-- Flushing the cache cannot lose the best anchor: the cache knows it, or the cache below it has
none of its own.
-/
def KeepsBest (ops : MerkleHash Uint256) (depth : Nat) : PoolView → Prop
  | .cache here (.cache parent grandparent) =>
    here.hashAnchor ≠ .null ∨ parent.hashAnchor = .null
      ∨ parent.hashAnchor = grandparent.bestAnchor ops depth
  | _ => True

theorem Consistent.nullifierAt_batchWrite
    (consistent : (cache here base).Consistent ops depth trees) (nullifier : Uint256)
    : (base.batchWrite ops depth here).nullifierAt nullifier
      = (cache here base).nullifierAt nullifier := by
  obtain ⟨below, nullifiers, _⟩ := consistent
  simp only [nullifierAt]
  cases cached : here.nullifiers.lookup nullifier with
  | none => cases base <;> simp [batchWrite, nullifierAt, lookup_overlay, cached]
  | some entry =>
    have clean := nullifiers nullifier entry cached
    cases base with
    | db disk =>
      simp only [batchWrite, nullifierAt, lookup_overlay, cached,
        elim_some, writeNullifierDB] at clean ⊢
      cases dirty : entry.dirty with
      | false => exact clean dirty
      | true => cases entry.entered <;> rfl
    | cache parent grandparent =>
      simp only [batchWrite, nullifierAt, lookup_overlay, cached,
        elim_some, writeNullifier] at clean ⊢
      cases dirty : entry.dirty with
      | false => exact clean dirty
      | true =>
        cases parent.nullifiers.lookup nullifier with
        | none => rfl
        | some us =>
          by_cases same : us.entered = entry.entered
          · simp [same]
          · simp [same]

/-- A nullifier that is written into a cache and not dirty there was in the cache before. -/
theorem writeNullifier_clean {nullifier entry written}
    (found : writeNullifier nullifier entry (parent.nullifiers.lookup nullifier) = some written)
    (clean : written.dirty = false)
    (nullifiers : ∀ nullifier entry, parent.nullifiers.lookup nullifier = some entry
      → entry.dirty = false → grandparent.nullifierAt nullifier = entry.entered)
    : grandparent.nullifierAt nullifier = written.entered := by
  unfold writeNullifier at found
  cases there : parent.nullifiers.lookup nullifier with
  | none =>
    rw [there] at found
    split at found
    · cases found
      cases clean
    · cases found
  | some us =>
    rw [there] at found
    simp only at found
    split at found
    · split at found
      · cases found
        cases clean
      · cases found
        exact nullifiers nullifier written there clean
    · cases found
      exact nullifiers nullifier written there clean

section

variable (ok : TreesOk ops depth trees)
include ok

/-- An anchor written into a cache has the tree that the cache already had for its root. -/
theorem AnchorOk.write (entryOk : AnchorOk ops depth trees (.cache parent grandparent) rt entry)
    (anchors : ∀ rt entry, parent.anchors.lookup rt = some entry
      → AnchorOk ops depth trees grandparent rt entry)
    : (∀ written ∈ writeAnchor rt entry (parent.anchors.lookup rt),
        AnchorOk ops depth trees grandparent rt written)
      ∧ (writeAnchor rt entry (parent.anchors.lookup rt)).elim
          (grandparent.anchorAt ops depth rt) CAnchorsCacheEntry.found = entry.found := by
  obtain ⟨known, rooted, kept, unchanged⟩ := entryOk
  unfold writeAnchor
  cases dirty : entry.dirty with
  | false =>
    have same := unchanged dirty
    exact ⟨anchors rt, same⟩
  | true =>
    cases cached : parent.anchors.lookup rt with
    | none =>
      refine ⟨?_, rfl⟩
      rintro written ⟨⟩
      exact ⟨known, rooted, kept, by simp⟩
    | some us =>
      have usOk := anchors rt us cached
      have sameTree : us.tree = entry.tree :=
        ok.distinct usOk.known known (usOk.rooted.trans rooted.symm)
      by_cases same : us.entered = entry.entered
      · simp only [same, ne_eq, not_true, if_true, if_false]
        constructor
        · rintro written ⟨⟩
          exact usOk
        · simp only [elim_some, CAnchorsCacheEntry.found, same, sameTree]
      · simp only [same, ne_eq, not_false_eq_true, if_true]
        constructor
        · rintro written ⟨⟩
          exact ⟨usOk.known, usOk.rooted, kept, by simp⟩
        · simp only [elim_some, CAnchorsCacheEntry.found, sameTree]

section

variable (consistent : (cache here base).Consistent ops depth trees)
include consistent

theorem Consistent.anchorAt_batchWrite (rt : Uint256)
    : (base.batchWrite ops depth here).anchorAt ops depth rt
      = (cache here base).anchorAt ops depth rt := by
  cases base with
  | db disk =>
    by_cases isEmpty : rt = ops.emptyRoot depth
    · subst isEmpty
      rw [consistent.anchorAt_empty ok, batchWrite, anchorAt, if_pos rfl]
    obtain ⟨_, _, anchors⟩ := consistent
    simp only [batchWrite, anchorAt, if_neg isEmpty, lookup_overlay]
    cases cached : here.anchors.lookup rt with
    | none => rfl
    | some entry =>
      have clean := (anchors rt entry cached).unchanged
      simp only [anchorAt, if_neg isEmpty] at clean
      simp only [elim_some, writeAnchorDB, ne_eq, isEmpty, not_false_eq_true, if_true]
      cases dirty : entry.dirty with
      | false => exact clean dirty
      | true => cases entered : entry.entered <;> simp [CAnchorsCacheEntry.found, entered]
  | cache parent grandparent =>
    obtain ⟨⟨_, _, parentAnchors⟩, _, anchors⟩ := consistent
    simp only [batchWrite, anchorAt, lookup_overlay]
    cases cached : here.anchors.lookup rt with
    | none => rfl
    | some entry => exact ((anchors rt entry cached).write ok parentAnchors).2

theorem Consistent.batchWrite
    : (base.batchWrite ops depth here).Consistent ops depth trees := by
  obtain ⟨below, nullifiers, anchors⟩ := consistent
  cases base with
  | db disk =>
    constructor
    · intro rt tree found
      rw [lookup_overlay] at found
      cases cached : here.anchors.lookup rt with
      | none =>
        rw [cached] at found
        exact below.1 rt tree found
      | some entry =>
        have entryOk := anchors rt entry cached
        rw [cached, elim_some, writeAnchorDB] at found
        split at found
        · split at found
          · cases found
          · split at found
            · cases found
              exact ⟨entryOk.known, entryOk.rooted⟩
            · exact below.1 rt tree found
        · exact below.1 rt tree found
    · split
      next known =>
        intro isNull
        exact known (some.inj isNull)
      next => exact below.2
  | cache parent grandparent =>
    obtain ⟨lowest, parentNullifiers, parentAnchors⟩ := below
    refine ⟨lowest, ?_, ?_⟩
    · intro nullifier written found clean
      rw [lookup_overlay] at found
      cases cached : here.nullifiers.lookup nullifier with
      | none =>
        rw [cached] at found
        exact parentNullifiers nullifier written found clean
      | some entry =>
        rw [cached] at found
        exact writeNullifier_clean found clean parentNullifiers
    · intro rt written found
      rw [lookup_overlay] at found
      cases cached : here.anchors.lookup rt with
      | none =>
        rw [cached] at found
        exact parentAnchors rt written found
      | some entry =>
        rw [cached] at found
        exact ((anchors rt entry cached).write ok parentAnchors).1 written found

end

end

/-- Flushing loses the best anchor exactly if the flushed cache does not know it while the cache
below it has one of its own.
-/
theorem bestAnchor_batchWrite
    : (base.batchWrite ops depth here).bestAnchor ops depth
        = (cache here base).bestAnchor ops depth
      ↔ (cache here base).KeepsBest ops depth := by
  cases base with
  | db disk =>
    simp only [batchWrite, bestAnchor, KeepsBest]
    by_cases unknown : here.hashAnchor = .null
    · simp [unknown]
    · simp [unknown]
  | cache parent grandparent =>
    simp only [batchWrite, bestAnchor, KeepsBest]
    by_cases unknown : here.hashAnchor = .null
    · by_cases parentUnknown : parent.hashAnchor = .null
      · simp [parentUnknown]
      · simp [unknown, parentUnknown, eq_comm]
    · simp [unknown]

section

variable (ok : TreesOk ops depth trees) (related : Related ops depth trees (.cache here base) state)
  (keeps : (cache here base).KeepsBest ops depth)
include ok related keeps

theorem Related.pop
    : Related ops depth trees (base.batchWrite ops depth here) state where
  consistent := related.consistent.batchWrite ok
  nullifiers nullifier := by
    rw [related.consistent.nullifierAt_batchWrite, related.nullifiers]
  anchors rt := by rw [related.consistent.anchorAt_batchWrite ok, related.anchors]
  best := by rw [bestAnchor_batchWrite.mpr keeps, related.best]

theorem Related.flush
    : Related ops depth trees
        (.cache { hashAnchor := here.hashAnchor } (base.batchWrite ops depth here)) state := by
  have popped := related.pop ok keeps
  refine ⟨⟨popped.consistent, nofun, nofun⟩, popped.nullifiers, popped.anchors, ?_⟩
  rw [← related.best, bestAnchor, bestAnchor_batchWrite.mpr keeps, bestAnchor]
  split
  next unknown => rfl
  next => rfl

end

theorem Related.push (related : Related ops depth trees view state)
    : Related ops depth trees (.cache {} view) state where
  consistent := ⟨related.consistent, nofun, nofun⟩
  nullifiers := related.nullifiers
  anchors := related.anchors
  best := related.best

end PoolView

/-! Both pools. -/

/-- The stacks of the two pools, which share nothing but the moments at which they change. -/
abbrev ShieldedView := ShieldedType → PoolView

inductive ShieldedOp where
  | getNullifier (nullifier : Uint256) (type : ShieldedType)
  | getAnchorAt (rt : Uint256) (type : ShieldedType)
  | getBestAnchor (type : ShieldedType)
  | setNullifiers (tx : CTransaction) (spent : Bool)
  | pushAnchor (tree : MerkleTree) (type : ShieldedType)
  | popAnchor (newrt : Uint256) (type : ShieldedType)
  | push
  | flush
  | pop

inductive ShieldedAnswer where
  | spent (entered : Bool)
  | tree (found : Option MerkleTree)
  | root (hashAnchor : Uint256)
  | done
  deriving DecidableEq

/-- The nullifiers that `SetNullifiers` sets in a pool. -/
def revealed (tx : CTransaction) : ShieldedType → List Uint256
  | .sprout => tx.sproutNullifiers
  | .sapling => tx.saplingNullifiers

/-- The depths of `SproutMerkleTree` and `SaplingMerkleTree`. -/
def treeDepth : ShieldedType → Nat
  | .sprout => Validation.sproutTreeDepth
  | .sapling => Validation.saplingTreeDepth

namespace ShieldedView

/-- Change one pool. -/
def onPool (type : ShieldedType) (change : PoolView → Except Failure PoolView)
    (view : ShieldedView) : Except Failure ShieldedView := do
  return Function.update view type (← change (view type))

/-- Change both pools. -/
def onPools (change : ShieldedType → PoolView → Except Failure PoolView) (view : ShieldedView)
    : Except Failure ShieldedView := do
  let sprout ← change .sprout (view .sprout)
  let sapling ← change .sapling (view .sapling)
  return fun
    | .sprout => sprout
    | .sapling => sapling

variable (ops : ShieldedType → MerkleHash Uint256) (trees : ShieldedType → Set MerkleTree)

def step (view : ShieldedView) : ShieldedOp → Except Failure (ShieldedView × ShieldedAnswer)
  | .getNullifier nullifier type =>
    let (entered, pool) := (view type).getNullifier nullifier
    pure (Function.update view type pool, .spent entered)
  | .getAnchorAt rt type =>
    let (found, pool) := (view type).getAnchorAt (ops type) (treeDepth type) rt
    pure (Function.update view type pool, .tree found)
  | .getBestAnchor type =>
    let (hashAnchor, pool) := (view type).getBestAnchor (ops type) (treeDepth type)
    pure (Function.update view type pool, .root hashAnchor)
  | .setNullifiers tx spent => do
    return (← view.onPools fun type => PoolView.setNullifiers (revealed tx type) spent, .done)
  | .pushAnchor tree type => do
    return (← view.onPool type (PoolView.pushAnchor (ops type) (treeDepth type) tree), .done)
  | .popAnchor newrt type => do
    return (← view.onPool type (PoolView.popAnchor (ops type) (treeDepth type) newrt), .done)
  | .push => pure (fun type => .cache {} (view type), .done)
  | .flush => do
    return (← view.onPools fun type => PoolView.flush (ops type) (treeDepth type), .done)
  | .pop => do
    return (← view.onPools fun type => PoolView.pop (ops type) (treeDepth type), .done)

/-- There is a cache on top. -/
def IsCache : PoolView → Prop
  | .db _ => False
  | .cache _ _ => True

/-- Only caches are changed and flushed; trees that are pushed are trees of the run; the best
anchor is in view when it is popped, and it is not the root of the empty tree; and no cache that
does not know its best anchor is flushed into a cache with a best anchor of its own.
-/
def Disciplined (view : ShieldedView) : ShieldedOp → Prop
  | .setNullifiers _ _ => ∀ type, IsCache (view type)
  | .pushAnchor tree type => IsCache (view type) ∧ tree ∈ trees type
  | .popAnchor newrt type =>
    IsCache (view type) ∧ newrt ≠ .null
      ∧ (view type).CanPop (ops type) (treeDepth type) newrt
  | .flush => ∀ type, IsCache (view type) ∧ (view type).KeepsBest (ops type) (treeDepth type)
  | .pop => ∀ type, IsCache (view type) ∧ (view type).KeepsBest (ops type) (treeDepth type)
  | _ => True

/-- The plain nullifier sets, maps from roots to trees and best roots. -/
def spec (states : ShieldedType → ShieldedState)
    : ShieldedOp → (ShieldedType → ShieldedState) × ShieldedAnswer
  | .getNullifier nullifier type => (states, .spent ((states type).getNullifier nullifier))
  | .getAnchorAt rt type => (states, .tree ((states type).getAnchorAt rt))
  | .getBestAnchor type => (states, .root (states type).hashAnchor)
  | .setNullifiers tx spent =>
    (fun type => (states type).setNullifiers (revealed tx type) spent, .done)
  | .pushAnchor tree type =>
    (Function.update states type
      ((states type).pushAnchor (ops type) (treeDepth type) tree), .done)
  | .popAnchor newrt type =>
    (Function.update states type
      (((states type).popAnchor newrt).toOption.getD (states type)), .done)
  | .push => (states, .done)
  | .flush => (states, .done)
  | .pop => (states, .done)

def Related (view : ShieldedView) (states : ShieldedType → ShieldedState) : Prop :=
  ∀ type, PoolView.Related (ops type) (treeDepth type) (trees type) (view type) (states type)

variable {ops trees} {view : ShieldedView} {states : ShieldedType → ShieldedState}
  {type : ShieldedType}

theorem Related.update (related : Related ops trees view states) {pool state}
    (changed : PoolView.Related (ops type) (treeDepth type) (trees type) pool state)
    : Related ops trees (Function.update view type pool) (Function.update states type state) := by
  intro other
  by_cases same : other = type
  · subst same
    rw [update_self, update_self]
    exact changed
  · rw [update_of_ne same, update_of_ne same]
    exact related other

theorem Related.fill (related : Related ops trees view states) {pool}
    (filled : PoolView.Fills (ops type) (treeDepth type) (trees type) pool (view type))
    : Related ops trees (Function.update view type pool) states := by
  have changed := related.update ((related type).of_fills filled)
  rwa [update_eq_self] at changed

theorem exists_cache {pool} (isCache : IsCache pool)
    : ∃ here base, pool = .cache here base := by
  cases pool with
  | db disk => cases isCache
  | cache here base => exact ⟨here, base, rfl⟩

/-- If the caches on top of both pools can be changed, the view can. -/
theorem Related.onPools (related : Related ops trees view states) {after}
    (change : ShieldedType → PoolView → Except Failure PoolView)
    (caches : ∀ type, IsCache (view type)) (each : ∀ {type here base}, view type = .cache here base
      → PoolView.Related (ops type) (treeDepth type) (trees type) (.cache here base) (states type)
      → ∃ pool, change type (.cache here base) = .ok pool
        ∧ PoolView.Related (ops type) (treeDepth type) (trees type) pool (after type))
    : ∃ changed, view.onPools change = .ok changed ∧ Related ops trees changed after := by
  have both : ∀ type, ∃ pool, change type (view type) = .ok pool
      ∧ PoolView.Related (ops type) (treeDepth type) (trees type) pool (after type) := by
    intro type
    obtain ⟨here, base, shape⟩ := exists_cache (caches type)
    rw [shape]
    exact each shape (shape ▸ related type)
  obtain ⟨sprout, sproutRun, sproutAfter⟩ := both .sprout
  obtain ⟨sapling, saplingRun, saplingAfter⟩ := both .sapling
  refine ⟨_, bind_ok.mpr ⟨sprout, sproutRun, bind_ok.mpr ⟨sapling, saplingRun, rfl⟩⟩, ?_⟩
  intro type
  cases type with
  | sprout => exact sproutAfter
  | sapling => exact saplingAfter

/-- Every disciplined operation on the stacks is matched by the plain values. -/
theorem step_simulates (ok : ∀ type, TreesOk (ops type) (treeDepth type) (trees type))
    : Simulates (step ops) (Disciplined ops trees) (spec ops) (Related ops trees) Eq := by
  intro view states op related allowed
  cases op with
  | getNullifier nullifier type =>
    obtain ⟨answer, fills⟩ := (related type).consistent.getNullifier nullifier
    refine ⟨_, rfl, related.fill fills, ?_⟩
    rw [spec, ← (related type).nullifiers, ← answer]
  | getAnchorAt rt type =>
    obtain ⟨answer, fills⟩ := (related type).consistent.getAnchorAt (ok type) rt
    refine ⟨_, rfl, related.fill fills, ?_⟩
    rw [spec, ← (related type).anchors, ← answer]
  | getBestAnchor type =>
    obtain ⟨answer, fills⟩ := (related type).consistent.getBestAnchor
    refine ⟨_, rfl, related.fill fills, ?_⟩
    rw [spec, ← (related type).best, ← answer]
  | setNullifiers tx spent =>
    obtain ⟨changed, run, after⟩ := related.onPools _ allowed fun _ pool => pool.setNullifiers _ _
    exact ⟨_, bind_ok.mpr ⟨changed, run, rfl⟩, after, rfl⟩
  | pushAnchor tree type =>
    obtain ⟨isCache, known⟩ := allowed
    obtain ⟨here, base, shape⟩ := exists_cache isCache
    have poolRelated := related type
    rw [shape] at poolRelated
    obtain ⟨next, run, nextRelated⟩ := poolRelated.pushAnchor (ok type) known
    rw [← shape] at run
    exact ⟨_, bind_ok.mpr ⟨_, bind_ok.mpr ⟨next, run, rfl⟩, rfl⟩, related.update nextRelated, rfl⟩
  | popAnchor newrt type =>
    obtain ⟨isCache, notNull, can⟩ := allowed
    obtain ⟨here, base, shape⟩ := exists_cache isCache
    have poolRelated := related type
    rw [shape] at poolRelated can
    obtain ⟨next, popped, run, plain, nextRelated⟩ := poolRelated.popAnchor (ok type) notNull can
    rw [← shape] at run
    refine ⟨_, bind_ok.mpr ⟨_, bind_ok.mpr ⟨next, run, rfl⟩, rfl⟩, ?_, rfl⟩
    rw [spec, plain]
    exact related.update nextRelated
  | push => exact ⟨_, rfl, fun type => (related type).push, rfl⟩
  | flush =>
    obtain ⟨changed, run, after⟩ := related.onPools
      (fun type => PoolView.flush (ops type) (treeDepth type)) (fun type => (allowed type).1)
      fun shape pool => ⟨_, rfl, pool.flush (ok _) (shape ▸ (allowed _).2)⟩
    exact ⟨_, bind_ok.mpr ⟨changed, run, rfl⟩, after, rfl⟩
  | pop =>
    obtain ⟨changed, run, after⟩ := related.onPools
      (fun type => PoolView.pop (ops type) (treeDepth type)) (fun type => (allowed type).1)
      fun shape pool => ⟨_, rfl, pool.pop (ok _) (shape ▸ (allowed _).2)⟩
    exact ⟨_, bind_ok.mpr ⟨changed, run, rfl⟩, after, rfl⟩

end ShieldedView

/-- The plain values that a database holds of a pool; the root of the empty tree is always an
anchor.
-/
def PoolDB.plain (ops : MerkleHash Uint256) (depth : Nat) (disk : PoolDB) : ShieldedState where
  nullifiers := disk.nullifiers.keys.toFinset
  anchors := disk.anchors.insert (ops.emptyRoot depth) {}
  hashAnchor := disk.hashAnchor.getD (ops.emptyRoot depth)

section Plain

variable {ops : MerkleHash Uint256} {depth : Nat} {trees : Set MerkleTree} {disk : PoolDB}

theorem PoolDB.nullifierAt_plain (nullifier : Uint256)
    : (db disk).nullifierAt nullifier
      = (disk.plain ops depth).getNullifier nullifier := by
  rw [nullifierAt, ShieldedState.getNullifier, plain, Bool.eq_iff_iff,
    decide_eq_true_eq, List.mem_toFinset, ← mem_keys, lookup_isSome]

theorem PoolDB.anchorAt_plain (rt : Uint256)
    : (db disk).anchorAt ops depth rt = (disk.plain ops depth).getAnchorAt rt := by
  rw [anchorAt, ShieldedState.getAnchorAt, plain]
  split
  next isEmpty =>
    subst isEmpty
    rw [lookup_insert]
  next differs => rw [lookup_insert_ne differs]

/-- The database holds the plain values. -/
structure PoolDB.Holds (ops : MerkleHash Uint256) (depth : Nat) (disk : PoolDB)
    (state : ShieldedState) : Prop where
  nullifiers : (disk.plain ops depth).nullifiers = state.nullifiers
  anchors : ∀ rt, (disk.plain ops depth).getAnchorAt rt = state.getAnchorAt rt
  best : (disk.plain ops depth).hashAnchor = state.hashAnchor

theorem PoolView.Related.holds {state} (related : PoolView.Related ops depth trees (.db disk) state)
    : disk.Holds ops depth state where
  nullifiers := by
    ext nullifier
    have same : (disk.plain ops depth).getNullifier nullifier = state.getNullifier nullifier :=
      PoolDB.nullifierAt_plain nullifier ▸ related.nullifiers nullifier
    simpa only [ShieldedState.getNullifier, decide_eq_decide] using same
  anchors rt := by rw [← PoolDB.anchorAt_plain, related.anchors]
  best := related.best

end Plain

namespace ShieldedView

variable {ops : ShieldedType → MerkleHash Uint256} {trees : ShieldedType → Set MerkleTree}

/-- On runs in which no cache that does not know its best anchor is flushed into a cache with a
best anchor of its own, the stacks answer like the plain values, and once all caches are flushed
the databases hold them. In every state of such a run a flush keeps the best anchor only under that
condition.
-/
theorem stacks_refine_plain (ok : ∀ type, TreesOk (ops type) (treeDepth type) (trees type))
    {disks : ShieldedType → PoolDB} {run : List ShieldedOp} (stored : ∀ type,
      (PoolView.db (disks type)).Consistent (ops type) (treeDepth type) (trees type))
    (discipline : Allowed (step ops) (Disciplined ops trees) (fun type => .db (disks type)) run)
    : ∃ view, Simulation.run (step ops) (fun type => .db (disks type)) run
        = .ok (view,
          (runSpec (spec ops) (fun type => (disks type).plain (ops type) (treeDepth type)) run).2)
      ∧ (∀ type flushed, view type = .db flushed → flushed.Holds (ops type) (treeDepth type)
          ((runSpec (spec ops) (fun type => (disks type).plain (ops type) (treeDepth type))
            run).1 type))
      ∧ ∀ type here base, view type = .cache here base
        → ((base.batchWrite (ops type) (treeDepth type) here).bestAnchor (ops type) (treeDepth type)
            = (view type).bestAnchor (ops type) (treeDepth type)
          ↔ (view type).KeepsBest (ops type) (treeDepth type)) := by
  have start : Related ops trees (fun type => .db (disks type))
      (fun type => (disks type).plain (ops type) (treeDepth type)) :=
    fun type => ⟨stored type, PoolDB.nullifierAt_plain, PoolDB.anchorAt_plain, rfl⟩
  obtain ⟨⟨view, answers⟩, finished, related, agree⟩ := (step_simulates ok).run_ok start discipline
  rw [List.forall₂_eq_eq_eq] at agree
  refine ⟨view, ?_, ?_, ?_⟩
  · rw [finished, ← agree]
  · intro type flushed shape
    have poolRelated := related type
    simp only [shape] at poolRelated
    exact poolRelated.holds
  · intro type here base shape
    rw [shape]
    exact bestAnchor_batchWrite

section Examples

def hashOne : Uint256 := List.Vector.replicate 32 1
def hashTwo : Uint256 := List.Vector.replicate 32 2

/-- A hash under which the root of a tree is its first leaf. -/
def firstLeaf : MerkleHash Uint256 where
  combine left _ _ := left
  uncommitted := hashOne
  emptyRoot _ := hashOne
  bytes hash := hash.toList
  emptyRoot_zero := rfl
  emptyRoot_succ _ := rfl

def oneLeaf : MerkleTree := { left := some hashTwo }

theorem treesOk_oneLeaf (type : ShieldedType)
    : TreesOk firstLeaf (treeDepth type) {tree | tree = {} ∨ tree = oneLeaf} where
  positive := by cases type <;> decide
  empty := .inl rfl
  distinct := by
    have differ : ({} : MerkleTree).root firstLeaf (treeDepth type)
        ≠ oneLeaf.root firstLeaf (treeDepth type) := by cases type <;> decide +kernel
    rintro a (rfl | rfl) b (rfl | rfl) same
    · rfl
    · exact absurd same differ
    · exact absurd same.symm differ
    · rfl
  notNull := by
    rintro tree (rfl | rfl)
    · cases type <;> decide +kernel
    · cases type <;> decide +kernel

/-- An anchor is pushed in one cache and popped in another one over it. -/
def popAbove : List ShieldedOp :=
  [.push, .pushAnchor oneLeaf .sprout, .push, .popAnchor hashOne .sprout, .getBestAnchor .sapling,
    .pop, .pop]

theorem popAbove_refines
    : ∃ view, Simulation.run (step fun _ => firstLeaf) (fun _ => .db {}) popAbove
      = .ok (view, [.done, .done, .done, .done, .root hashOne, .done, .done]) := by
  have start : ∀ type, (db {}).Consistent firstLeaf (treeDepth type)
      {tree | tree = {} ∨ tree = oneLeaf} := fun type => ⟨nofun, nofun⟩
  have discipline : Allowed (step fun _ => firstLeaf)
      (Disciplined (fun _ => firstLeaf) fun _ => {tree | tree = {} ∨ tree = oneLeaf})
      (fun _ => .db {}) popAbove := by
    refine .cons rfl trivial <| .cons rfl ⟨trivial, .inr rfl⟩ <| .cons rfl trivial <|
      .cons rfl ⟨trivial, by decide, .inr ⟨rfl, by decide⟩⟩ <| .cons rfl trivial <|
      .cons rfl ?_ <| .cons rfl ?_ trivial
    · intro type
      cases type with
      | sprout => exact ⟨trivial, .inl (by decide)⟩
      | sapling => exact ⟨trivial, .inl (by decide)⟩
    · intro type
      cases type with
      | sprout => exact ⟨trivial, trivial⟩
      | sapling => exact ⟨trivial, trivial⟩
  obtain ⟨view, finished, _⟩ := stacks_refine_plain treesOk_oneLeaf start discipline
  exact ⟨view, finished⟩

def hashThree : Uint256 := List.Vector.replicate 32 3
def otherLeaf : MerkleTree := { left := some hashThree }

/-- What the stacks and the plain values answer. -/
def stackAnswers (run : List ShieldedOp) : Except Failure (List ShieldedAnswer) :=
  (Simulation.run (step fun _ => firstLeaf) (fun _ => .db {}) run).map Prod.snd

def plainAnswers (run : List ShieldedOp) : List ShieldedAnswer :=
  (runSpec (spec fun _ => firstLeaf)
    (fun type => PoolDB.plain firstLeaf (treeDepth type) {}) run).2

/-- A cache in which nothing was asked or changed is flushed into one with a new anchor: the best
anchor is again that of the database. An empty tree that was pushed and popped is an anchor again
after a flush, and an anchor that was pushed twice cannot be popped twice.
-/
theorem flush_forgets_bestAnchor
    : (stackAnswers
          [.push, .pushAnchor oneLeaf .sprout, .push, .pop, .getBestAnchor .sprout]
        = .ok [.done, .done, .done, .done, .root hashOne]
      ∧ plainAnswers
          [.push, .pushAnchor oneLeaf .sprout, .push, .pop, .getBestAnchor .sprout]
        = [.done, .done, .done, .done, .root hashTwo])
      ∧ (stackAnswers
          [.push, .pushAnchor oneLeaf .sprout, .pushAnchor {} .sprout, .popAnchor hashTwo .sprout,
            .pop, .getAnchorAt hashOne .sprout]
        = .ok [.done, .done, .done, .done, .done, .tree (some {})]
      ∧ plainAnswers
          [.push, .pushAnchor oneLeaf .sprout, .pushAnchor {} .sprout, .popAnchor hashTwo .sprout,
            .pop, .getAnchorAt hashOne .sprout]
        = [.done, .done, .done, .done, .done, .tree none])
      ∧ stackAnswers
          [.push, .pushAnchor oneLeaf .sprout, .pushAnchor otherLeaf .sprout,
            .pushAnchor oneLeaf .sprout, .popAnchor hashThree .sprout, .popAnchor hashTwo .sprout,
            .popAnchor hashOne .sprout]
        = .error (.assertion "GetAnchorAt(currentRoot, tree)") :=
  ⟨⟨rfl, rfl⟩, ⟨rfl, rfl⟩, rfl⟩

end Examples

end ShieldedView

end Resistance.Coins

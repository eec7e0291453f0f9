import Resistance.Coins.View

/-! Nullifiers and anchors of one shielded pool in a stack of `CCoinsViewCache` over a database,
from `coins.cpp` and `txdb.cpp`. A null best anchor in a cache means that the view below it
knows; an entry that is not `entered` hides what the view below it says.
-/

namespace Resistance.Coins

open Primitives Consensus Zcash Lib Lib.Checks IncrementalMerkleTree AList

structure CNullifiersCacheEntry where
  /-- If the nullifier is spent or not. -/
  entered : Bool := false
  dirty : Bool := false
  deriving DecidableEq

/-- `CAnchorsSproutCacheEntry` and `CAnchorsSaplingCacheEntry`. -/
structure CAnchorsCacheEntry where
  /-- This will be false if the anchor is removed from the cache. -/
  entered : Bool := false
  tree : MerkleTree := {}
  dirty : Bool := false
  deriving DecidableEq

/-- What `CCoinsViewDB` holds of one pool. -/
structure PoolDB where
  nullifiers : FiniteMap Uint256 Bool := ∅
  anchors : FiniteMap Uint256 MerkleTree := ∅
  hashAnchor : Option Uint256 := none

/-- What one `CCoinsViewCache` holds of one pool. -/
structure PoolCache where
  nullifiers : FiniteMap Uint256 CNullifiersCacheEntry := ∅
  anchors : FiniteMap Uint256 CAnchorsCacheEntry := ∅
  hashAnchor : Uint256 := .null

/-- The database, or a cache with the view that backs it. -/
inductive PoolView where
  | db (disk : PoolDB)
  | cache (here : PoolCache) (base : PoolView)

namespace PoolView

/-- `GetNullifier`: the answer, and the view with the caches filled, also by negative answers. -/
def getNullifier (nullifier : Uint256) : PoolView → Bool × PoolView
  | .db disk => ((disk.nullifiers.lookup nullifier).isSome, .db disk)
  | .cache here base =>
    match here.nullifiers.lookup nullifier with
    | some entry => (entry.entered, .cache here base)
    | none =>
      let (tmp, base) := base.getNullifier nullifier
      let entry : CNullifiersCacheEntry := { entered := tmp }
      (tmp, .cache { here with nullifiers := here.nullifiers.insert nullifier entry } base)

section Trees

variable (ops : MerkleHash Uint256) (depth : Nat)

/-- `GetSproutAnchorAt` and `GetSaplingAnchorAt`. -/
def getAnchorAt (rt : Uint256) : PoolView → Option MerkleTree × PoolView
  | .db disk =>
    (if rt = ops.emptyRoot depth then some {} else disk.anchors.lookup rt, .db disk)
  | .cache here base =>
    match here.anchors.lookup rt with
    | some entry => (if entry.entered then some entry.tree else none, .cache here base)
    | none =>
      match base.getAnchorAt rt with
      | (none, base) => (none, .cache here base)
      | (some tree, base) =>
        let entry : CAnchorsCacheEntry := { entered := true, tree }
        (some tree, .cache { here with anchors := here.anchors.insert rt entry } base)

def getBestAnchor : PoolView → Uint256 × PoolView
  | .db disk => (disk.hashAnchor.getD (ops.emptyRoot depth), .db disk)
  | .cache here base =>
    if here.hashAnchor = .null then
      let (hashAnchor, base) := base.getBestAnchor
      (hashAnchor, .cache { here with hashAnchor } base)
    else (here.hashAnchor, .cache here base)

/-- `SetNullifiers`, for the nullifiers that a transaction reveals in this pool. -/
def setNullifiers (revealed : List Uint256) (spent : Bool) : PoolView → Except Failure PoolView
  | .db _ => .error .undefined
  | .cache here base =>
    let nullifiers := revealed.foldl (fun cacheNullifiers nullifier =>
      cacheNullifiers.insert nullifier { entered := spent, dirty := true }) here.nullifiers
    pure (.cache { here with nullifiers } base)

/-- `AbstractPushAnchor`. -/
def pushAnchor (tree : MerkleTree) (view : PoolView) : Except Failure PoolView :=
  let newrt := tree.root ops depth
  match view.getBestAnchor ops depth with
  | (_, .db _) => .error .undefined
  | (currentRoot, .cache here base) =>
    -- We don't want to overwrite an anchor we already have.
    if currentRoot ≠ newrt then
      let entry : CAnchorsCacheEntry := { entered := true, tree, dirty := true }
      pure (.cache
        { here with anchors := here.anchors.insert newrt entry, hashAnchor := newrt } base)
    else pure (.cache here base)

/-- `AbstractPopAnchor`. -/
def popAnchor (newrt : Uint256) (view : PoolView) : Except Failure PoolView :=
  let (currentRoot, view) := view.getBestAnchor ops depth
  if currentRoot ≠ newrt then
    -- Bring the current best anchor into our local cache so that its tree exists in memory.
    match view.getAnchorAt ops depth currentRoot with
    | (none, _) => .error (.assertion "GetAnchorAt(currentRoot, tree)")
    | (some _, .db _) => .error .undefined
    | (some _, .cache here base) =>
      -- Mark the anchor as unentered, removing it from view
      let entry := (here.anchors.lookup currentRoot).getD {}
      let entry := { entry with entered := false, dirty := true }
      pure (.cache
        { here with anchors := here.anchors.insert currentRoot entry, hashAnchor := newrt } base)
  else pure view

/-- One iteration of the `BatchWriteNullifiers` of the database. -/
def writeNullifierDB (_ : Uint256) (entry : CNullifiersCacheEntry) (us : Option Bool)
    : Option Bool :=
  if entry.dirty then
    if !entry.entered then none else some true
  else us

/-- One iteration of the `BatchWriteAnchors` of the database. -/
def writeAnchorDB (rt : Uint256) (entry : CAnchorsCacheEntry) (us : Option MerkleTree)
    : Option MerkleTree :=
  if entry.dirty then
    if !entry.entered then none
    else if rt ≠ ops.emptyRoot depth then some entry.tree
    else us
  else us

/-- One iteration of the `BatchWriteNullifiers` of a cache. -/
def writeNullifier (_ : Uint256) (entry : CNullifiersCacheEntry)
    (us : Option CNullifiersCacheEntry) : Option CNullifiersCacheEntry :=
  if entry.dirty then
    match us with
    | none => some { entered := entry.entered, dirty := true }
    | some us =>
      if us.entered ≠ entry.entered then some { entered := entry.entered, dirty := true }
      else some us
  else us

/-- One iteration of the `BatchWriteAnchors` of a cache. -/
def writeAnchor (_ : Uint256) (entry : CAnchorsCacheEntry) (us : Option CAnchorsCacheEntry)
    : Option CAnchorsCacheEntry :=
  if entry.dirty then
    match us with
    | none => some { entered := entry.entered, tree := entry.tree, dirty := true }
    | some us =>
      -- The parent may have removed the entry.
      if us.entered ≠ entry.entered then
        some { us with entered := entry.entered, dirty := true }
      else some us
  else us

def batchWrite (child : PoolCache) : PoolView → PoolView
  | .db disk => .db {
      nullifiers := FiniteMap.overlay writeNullifierDB child.nullifiers disk.nullifiers
      anchors := FiniteMap.overlay (writeAnchorDB ops depth) child.anchors disk.anchors
      hashAnchor := if child.hashAnchor ≠ .null then some child.hashAnchor else disk.hashAnchor }
  | .cache here base => .cache {
      nullifiers := FiniteMap.overlay writeNullifier child.nullifiers here.nullifiers
      anchors := FiniteMap.overlay writeAnchor child.anchors here.anchors
      hashAnchor := child.hashAnchor } base

/-- `Flush` empties the maps, but keeps the best anchor. -/
def flush : PoolView → Except Failure PoolView
  | .db _ => .error .undefined
  | .cache here base =>
    pure (.cache { hashAnchor := here.hashAnchor } (base.batchWrite ops depth here))

/-- `Flush`, and the end of the flushed cache. -/
def pop : PoolView → Except Failure PoolView
  | .db _ => .error .undefined
  | .cache here base => pure (base.batchWrite ops depth here)

end Trees

end PoolView

/-- The tree, unless the anchor was removed. -/
def CAnchorsCacheEntry.found (entry : CAnchorsCacheEntry) : Option MerkleTree :=
  if entry.entered then some entry.tree else none

namespace PoolView

def nullifierAt (nullifier : Uint256) : PoolView → Bool
  | .db disk => (disk.nullifiers.lookup nullifier).isSome
  | .cache here base =>
    (here.nullifiers.lookup nullifier).elim (base.nullifierAt nullifier)
      CNullifiersCacheEntry.entered

variable (ops : MerkleHash Uint256) (depth : Nat) (trees : Set MerkleTree)

def anchorAt (rt : Uint256) : PoolView → Option MerkleTree
  | .db disk => if rt = ops.emptyRoot depth then some {} else disk.anchors.lookup rt
  | .cache here base =>
    (here.anchors.lookup rt).elim (base.anchorAt rt) CAnchorsCacheEntry.found

def bestAnchor : PoolView → Uint256
  | .db disk => disk.hashAnchor.getD (ops.emptyRoot depth)
  | .cache here base => if here.hashAnchor = .null then base.bestAnchor else here.hashAnchor

/-- What an entry for an anchor promises about its tree and the view below it. -/
structure AnchorOk (base : PoolView) (rt : Uint256) (entry : CAnchorsCacheEntry) : Prop where
  known : entry.tree ∈ trees
  rooted : entry.tree.root ops depth = rt
  kept : rt = ops.emptyRoot depth → entry.entered = true
  unchanged : entry.dirty = false → base.anchorAt ops depth rt = entry.found

/-- Trees are stored under their roots, and every entry of every cache of the stack that is not
dirty says what the view below it says.
-/
def Consistent : PoolView → Prop
  | .db disk =>
    (∀ rt tree, disk.anchors.lookup rt = some tree
      → tree ∈ trees ∧ tree.root ops depth = rt)
    ∧ disk.hashAnchor ≠ some .null
  | .cache here base =>
    base.Consistent
    ∧ (∀ nullifier entry, here.nullifiers.lookup nullifier = some entry
      → entry.dirty = false → base.nullifierAt nullifier = entry.entered)
    ∧ ∀ rt entry, here.anchors.lookup rt = some entry
      → AnchorOk ops depth trees base rt entry

/-- The views give the same answers. -/
structure SaysSame (a b : PoolView) : Prop where
  nullifierAt : ∀ nullifier, a.nullifierAt nullifier = b.nullifierAt nullifier
  anchorAt : ∀ rt, a.anchorAt ops depth rt = b.anchorAt ops depth rt
  bestAnchor : a.bestAnchor ops depth = b.bestAnchor ops depth

theorem SaysSame.refl (view : PoolView) : SaysSame ops depth view view :=
  ⟨fun _ => rfl, fun _ => rfl, rfl⟩

end PoolView

/-- The trees of a run: roots tell them apart, and none of them is the null hash. -/
structure TreesOk (ops : MerkleHash Uint256) (depth : Nat) (trees : Set MerkleTree) : Prop where
  positive : 0 < depth
  empty : {} ∈ trees
  distinct : Set.InjOn (IncrementalMerkleTree.root ops depth) trees
  notNull : ∀ tree ∈ trees, tree.root ops depth ≠ .null

variable {ops : MerkleHash Uint256} {depth : Nat} {trees : Set MerkleTree}

theorem rootFill_empty (steps d : Nat)
    : rootFill ops steps d (ops.emptyRoot d) []
      = ops.emptyRoot (d + steps) := by
  induction steps generalizing d with
  | zero => rfl
  | succ steps ih =>
    rw [rootFill, fillerNext, ← ops.emptyRoot_succ, ih, Nat.add_right_comm, Nat.add_assoc]

theorem TreesOk.root_empty (ok : TreesOk ops depth trees)
    : ({} : MerkleTree).root ops depth = ops.emptyRoot depth := by
  have fill : rootFill ops (depth - 1) 1 (ops.emptyRoot 1) []
      = ops.emptyRoot (1 + (depth - 1)) := rootFill_empty (depth - 1) 1
  rw [Nat.add_sub_cancel' ok.positive, ops.emptyRoot_succ] at fill
  exact fill

namespace PoolView

variable {view base filled : PoolView} {here : PoolCache} {rt : Uint256} {tree : MerkleTree}

section

variable (ok : TreesOk ops depth trees) (consistent : view.Consistent ops depth trees)
include ok consistent

/-- Every anchor in view is a tree of the run under its root. -/
theorem Consistent.known (found : view.anchorAt ops depth rt = some tree)
    : tree ∈ trees ∧ tree.root ops depth = rt := by
  induction view with
  | db disk =>
    rw [anchorAt] at found
    split at found
    next isEmpty =>
      cases found
      exact ⟨ok.empty, ok.root_empty.trans isEmpty.symm⟩
    next => exact consistent.1 rt tree found
  | cache here base ih =>
    obtain ⟨below, _, anchors⟩ := consistent
    rw [anchorAt] at found
    cases cached : here.anchors.lookup rt with
    | none =>
      rw [cached] at found
      exact ih below found
    | some entry =>
      have entryOk := anchors rt entry cached
      rw [cached, Option.elim_some, CAnchorsCacheEntry.found] at found
      split at found
      · cases found
        exact ⟨entryOk.known, entryOk.rooted⟩
      · cases found

/-- The empty root is always an anchor. -/
theorem Consistent.anchorAt_empty
    : view.anchorAt ops depth (ops.emptyRoot depth) = some {} := by
  induction view with
  | db disk => rw [anchorAt, if_pos rfl]
  | cache here base ih =>
    obtain ⟨below, _, anchors⟩ := consistent
    rw [anchorAt]
    cases cached : here.anchors.lookup (ops.emptyRoot depth) with
    | none => exact ih below
    | some entry =>
      have entryOk := anchors _ entry cached
      have same : entry.tree = {} := ok.distinct entryOk.known ok.empty
        (entryOk.rooted.trans ok.root_empty.symm)
      rw [Option.elim_some, CAnchorsCacheEntry.found, if_pos (entryOk.kept rfl), same]

end

/-- Entries keep their promises over a view that says the same. -/
theorem Consistent.rebase (consistent : (cache here base).Consistent ops depth trees)
    (below : filled.Consistent ops depth trees) (same : SaysSame ops depth filled base)
    : (cache here filled).Consistent ops depth trees := by
  obtain ⟨_, nullifiers, anchors⟩ := consistent
  refine ⟨below, ?_, ?_⟩
  · intro nullifier entry found clean
    rw [same.nullifierAt]
    exact nullifiers nullifier entry found clean
  intro rt entry found
  obtain ⟨known, rooted, kept, unchanged⟩ := anchors rt entry found
  refine ⟨known, rooted, kept, ?_⟩
  intro clean
  rw [same.anchorAt]
  exact unchanged clean

theorem SaysSame.cache (same : SaysSame ops depth filled base)
    : SaysSame ops depth (.cache here filled) (.cache here base) where
  nullifierAt nullifier := by simp only [PoolView.nullifierAt, same.nullifierAt]
  anchorAt rt := by simp only [PoolView.anchorAt, same.anchorAt]
  bestAnchor := by simp only [PoolView.bestAnchor, same.bestAnchor]

/-- An operation that only fills caches. -/
structure Fills (ops : MerkleHash Uint256) (depth : Nat) (trees : Set MerkleTree)
    (filled view : PoolView) : Prop where
  consistent : filled.Consistent ops depth trees
  same : SaysSame ops depth filled view

theorem Fills.refl (consistent : view.Consistent ops depth trees)
    : Fills ops depth trees view view :=
  ⟨consistent, .refl ops depth view⟩

section

variable (fills : Fills ops depth trees filled base)
  (consistent : (cache here base).Consistent ops depth trees)
include fills consistent

/-- The cache gets a clean entry for the nullifier, with what the view below it says. -/
theorem Fills.nullifier {nullifier} (absent : here.nullifiers.lookup nullifier = none)
    : Fills ops depth trees
        (.cache { here with
          nullifiers := here.nullifiers.insert nullifier ⟨base.nullifierAt nullifier, false⟩ }
          filled)
        (.cache here base) := by
  obtain ⟨below, nullifiers, anchors⟩ := consistent.rebase fills.consistent fills.same
  refine ⟨⟨below, ?_, anchors⟩, ?_, fills.same.cache.anchorAt, fills.same.cache.bestAnchor⟩
  · intro other entry found clean
    rcases FiniteMap.lookup_insert_cases found with ⟨rfl, rfl⟩ | ⟨-, before⟩
    · exact fills.same.nullifierAt other
    · exact nullifiers other entry before clean
  · intro other
    simp only [PoolView.nullifierAt]
    by_cases here : other = nullifier
    · subst here
      rw [lookup_insert, absent]
      rfl
    · rw [lookup_insert_ne here, fills.same.nullifierAt]

/-- The cache gets a clean entry for an anchor that the view below it has. -/
theorem Fills.anchor (ok : TreesOk ops depth trees)
    (absent : here.anchors.lookup rt = none) (found : base.anchorAt ops depth rt = some tree)
    : Fills ops depth trees
        (.cache { here with anchors := here.anchors.insert rt { entered := true, tree } } filled)
        (.cache here base) := by
  obtain ⟨below, nullifiers, anchors⟩ := consistent.rebase fills.consistent fills.same
  obtain ⟨known, rooted⟩ := consistent.1.known ok found
  refine ⟨⟨below, nullifiers, ?_⟩, fills.same.cache.nullifierAt, ?_, fills.same.cache.bestAnchor⟩
  · intro other entry cached
    rcases FiniteMap.lookup_insert_cases cached with ⟨rfl, rfl⟩ | ⟨-, before⟩
    · refine ⟨known, rooted, fun _ => rfl, ?_⟩
      intro _
      rw [fills.same.anchorAt, found]
      rfl
    · exact anchors other entry before
  · intro other
    simp only [PoolView.anchorAt]
    by_cases here : other = rt
    · subst here
      rw [lookup_insert, absent, found]
      rfl
    · rw [lookup_insert_ne here, fills.same.anchorAt]

/-- The cache gets the best anchor that the view below it has. -/
theorem Fills.best (unknown : here.hashAnchor = .null)
    : Fills ops depth trees
        (.cache { here with hashAnchor := base.bestAnchor ops depth } filled)
        (.cache here base) := by
  obtain ⟨below, nullifiers, anchors⟩ := consistent.rebase fills.consistent fills.same
  refine ⟨⟨below, nullifiers, anchors⟩, fills.same.cache.nullifierAt, fills.same.cache.anchorAt, ?_⟩
  simp only [PoolView.bestAnchor, fills.same.bestAnchor]
  split
  · rfl
  · rfl

end

theorem Consistent.getNullifier (consistent : view.Consistent ops depth trees) (nullifier : Uint256)
    : (view.getNullifier nullifier).1 = view.nullifierAt nullifier
      ∧ Fills ops depth trees (view.getNullifier nullifier).2 view := by
  induction view with
  | db disk => exact ⟨rfl, .refl consistent⟩
  | cache here base ih =>
    obtain ⟨answer, fills⟩ := ih consistent.1
    rw [PoolView.getNullifier, PoolView.nullifierAt]
    cases cached : here.nullifiers.lookup nullifier with
    | some entry => exact ⟨rfl, .refl consistent⟩
    | none =>
      refine ⟨answer, ?_⟩
      simp only [answer]
      exact fills.nullifier consistent cached

theorem Consistent.getAnchorAt (ok : TreesOk ops depth trees)
    (consistent : view.Consistent ops depth trees) (rt : Uint256)
    : (view.getAnchorAt ops depth rt).1 = view.anchorAt ops depth rt
      ∧ Fills ops depth trees (view.getAnchorAt ops depth rt).2 view := by
  induction view with
  | db disk => exact ⟨rfl, .refl consistent⟩
  | cache here base ih =>
    obtain ⟨answer, fills⟩ := ih consistent.1
    rw [PoolView.getAnchorAt, PoolView.anchorAt]
    cases cached : here.anchors.lookup rt with
    | some entry => exact ⟨rfl, .refl consistent⟩
    | none =>
      rw [← answer]
      cases asked : base.getAnchorAt ops depth rt with
      | mk found filled =>
        rw [asked] at answer fills
        cases found with
        | none => exact ⟨rfl, consistent.rebase fills.consistent fills.same, fills.same.cache⟩
        | some tree => exact ⟨rfl, fills.anchor consistent ok cached answer.symm⟩

theorem Consistent.getBestAnchor (consistent : view.Consistent ops depth trees)
    : (view.getBestAnchor ops depth).1 = view.bestAnchor ops depth
      ∧ Fills ops depth trees (view.getBestAnchor ops depth).2 view := by
  induction view with
  | db disk => exact ⟨rfl, .refl consistent⟩
  | cache here base ih =>
    obtain ⟨answer, fills⟩ := ih consistent.1
    rw [PoolView.getBestAnchor, PoolView.bestAnchor]
    split
    next unknown =>
      refine ⟨answer, ?_⟩
      simp only [answer]
      exact fills.best consistent unknown
    next => exact ⟨rfl, .refl consistent⟩

end PoolView

end Resistance.Coins

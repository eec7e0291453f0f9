import Resistance.Coins.Coins
import Resistance.Consensus.Validation

/-! Stacks of `CCoinsViewCache` over a database, from `coins.cpp` and `txdb.cpp`. The `DIRTY`
and `FRESH` flags of an entry decide what happens to it when its cache is flushed.
-/

namespace Resistance.Coins

open Primitives Consensus Lib Lib.Checks FiniteMap

structure CCoinsCacheEntry where
  coins : CCoins := .clear
  /-- `DIRTY`: potentially different from the version in the parent view. -/
  dirty : Bool := false
  /-- `FRESH`: the parent view does not have this entry, or it is pruned. -/
  fresh : Bool := false
  deriving DecidableEq

abbrev CCoinsMap := FiniteMap Uint256 CCoinsCacheEntry

/-- `CCoinsViewDB`: what the database holds under `DB_COINS`. -/
structure CCoinsViewDB where
  coins : FiniteMap Uint256 CCoins

/-- A coins view: the database, or a cache with the view that backs it. -/
inductive CCoinsView where
  | db (disk : CCoinsViewDB)
  | cache (cacheCoins : CCoinsMap) (base : CCoinsView)

namespace CCoinsView

/-- `FetchCoins` on a cache. `fetched` is what `base->GetCoins` gives, which also changes the
base; it is asked only if the cache has no entry.
-/
def fetchCoins (txid : Uint256) (cacheCoins : CCoinsMap) (base : CCoinsView)
    (fetched : Option CCoins × CCoinsView) : Option CCoinsCacheEntry × CCoinsView :=
  match cacheCoins.lookup txid with
  | some entry => (some entry, .cache cacheCoins base)
  | none =>
    match fetched with
    | (none, base) => (none, .cache cacheCoins base)
    | (some tmp, base) =>
      -- if the parent only has an empty entry, our version is fresh
      let entry := { coins := tmp, fresh := tmp.isPruned }
      (some entry, .cache (cacheCoins.insert txid entry) base)

/-- `GetCoins`: the coins, and the view with the caches filled. Reading from the database
ends with a `Cleanup`.
-/
def getCoins : CCoinsView → Uint256 → Option CCoins × CCoinsView
  | .db disk, txid => ((disk.coins.lookup txid).map CCoins.cleanup, .db disk)
  | .cache cacheCoins base, txid =>
    let (entry, view) := fetchCoins txid cacheCoins base (base.getCoins txid)
    (entry.map CCoinsCacheEntry.coins, view)

/-- `CCoinsViewCache::HaveCoins`. -/
def haveCoins : CCoinsView → Uint256 → Except Failure (Bool × CCoinsView)
  | .db _, _ => .error .undefined
  | .cache cacheCoins base, txid =>
    let (entry, view) := fetchCoins txid cacheCoins base (base.getCoins txid)
    pure (entry.any (! ·.coins.vout.isEmpty), view)

/-- `~CCoinsModifier` on an entry that the modifier may have changed. -/
def release (txid : Uint256) (entry : CCoinsCacheEntry) (cacheCoins : CCoinsMap)
    : CCoinsMap :=
  let entry := { entry with coins := entry.coins.cleanup }
  if entry.fresh && entry.coins.isPruned then cacheCoins.erase txid
  else cacheCoins.insert txid entry

/-- The entry that `ModifyCoins` hands to its modifier, and the base after it was asked. -/
def acquire (txid : Uint256) (cacheCoins : CCoinsMap) (base : CCoinsView)
    : CCoinsCacheEntry × CCoinsView :=
  match cacheCoins.lookup txid with
  | some entry => (entry, base)
  | none =>
    match base.getCoins txid with
    | (none, base) => ({ coins := .clear, fresh := true }, base)
    | (some coins, base) => ({ coins, fresh := coins.isPruned }, base)

/-- `ModifyCoins`, an edit through the modifier, and the end of the modifier. -/
def modifyCoins (txid : Uint256) (edit : CCoins → CCoins)
    : CCoinsView → Except Failure CCoinsView
  | .db _ => .error .undefined
  | .cache cacheCoins base =>
    let (entry, base) := acquire txid cacheCoins base
    let entry := { entry with dirty := true, coins := edit entry.coins }
    pure (.cache (release txid entry cacheCoins) base)

/-- `ModifyNewCoins`, an edit through the modifier, and the end of the modifier. -/
def modifyNewCoins (txid : Uint256) (edit : CCoins → CCoins)
    : CCoinsView → Except Failure CCoinsView
  | .db _ => .error .undefined
  | .cache cacheCoins base =>
    let entry := { coins := edit .clear, fresh := true, dirty := true }
    pure (.cache (release txid entry cacheCoins) base)

/-- One iteration of `CCoinsViewDB::BatchWrite`. -/
def writeEntryDB (entry : CCoinsCacheEntry) (us : Option CCoins)
    : Except Failure (Option CCoins) :=
  if entry.dirty then
    if entry.coins.isPruned then pure none else pure (some entry.coins)
  else pure us

/-- One iteration of `CCoinsViewCache::BatchWrite`. -/
def writeEntry (entry : CCoinsCacheEntry) (us : Option CCoinsCacheEntry)
    : Except Failure (Option CCoinsCacheEntry) :=
  if entry.dirty then
    match us with
    | none =>
      if entry.coins.isPruned then pure none
      else do
        throwIf (¬ entry.fresh) (.assertion "it->second.flags & CCoinsCacheEntry::FRESH")
        pure (some { coins := entry.coins, dirty := true, fresh := true })
    | some us =>
      if us.fresh && entry.coins.isPruned then pure none
      else pure (some { us with coins := entry.coins, dirty := true })
  else pure us

def batchWrite (mapCoins : CCoinsMap) : CCoinsView → Except Failure CCoinsView
  | .db disk => do
    let coins ← FiniteMap.merge writeEntryDB mapCoins disk.coins
    return .db { coins }
  | .cache cacheCoins base => do
    let cacheCoins ← FiniteMap.merge writeEntry mapCoins cacheCoins
    return .cache cacheCoins base

def flush : CCoinsView → Except Failure CCoinsView
  | .db _ => .error .undefined
  | .cache cacheCoins base => do
    let base ← base.batchWrite cacheCoins
    return .cache ∅ base

/-- `Flush`, and the end of the flushed cache. -/
def pop : CCoinsView → Except Failure CCoinsView
  | .db _ => .error .undefined
  | .cache cacheCoins base => base.batchWrite cacheCoins

/-- How many caches lie over the database. -/
def depth : CCoinsView → Nat
  | .db _ => 0
  | .cache _ base => base.depth + 1

/-- Flush the given number of caches from the top down. -/
def flushCaches : Nat → CCoinsView → Except Failure CCoinsView
  | 0, view => pure view
  | n + 1, view => do
    let view ← view.pop
    view.flushCaches n

def flushAll (view : CCoinsView) : Except Failure CCoinsView :=
  view.flushCaches view.depth

/-- The coins that a query would find. -/
def coinsAt : CCoinsView → Uint256 → Option CCoins
  | .db disk, txid => (disk.coins.lookup txid).map CCoins.cleanup
  | .cache cacheCoins base, txid =>
    match cacheCoins.lookup txid with
    | some entry => some entry.coins
    | none => base.coinsAt txid

/-- The view can take a changed version of the entry that is not fresh. -/
def Holds : CCoinsView → Uint256 → Prop
  | .db _, _ => True
  | .cache cacheCoins _, txid => (cacheCoins.lookup txid).isSome

/-- No unspent outputs. -/
def Spent (found : Option CCoins) : Prop := ∀ coins ∈ found, coins.isPruned = true

/-- What the flags of an entry promise about the view below it. -/
structure EntryOk (base : CCoinsView) (txid : Uint256) (entry : CCoinsCacheEntry) : Prop where
  clean : entry.coins.Clean
  fresh : entry.fresh = true → Spent (base.coinsAt txid)
  backed : entry.fresh = false → base.Holds txid
  unchanged : entry.dirty = false → base.coinsAt txid = some entry.coins

/-- Every entry of every cache of the stack keeps the promise of its flags. -/
def Consistent : CCoinsView → Prop
  | .db _ => True
  | .cache cacheCoins base =>
    base.Consistent
    ∧ ∀ txid entry, cacheCoins.lookup txid = some entry → EntryOk base txid entry

variable {cacheCoins : CCoinsMap} {txid : Uint256} {entry : CCoinsCacheEntry}
  {view filled base : CCoinsView} {coins : CCoins}

theorem coinsAt_cache_some (found : cacheCoins.lookup txid = some entry)
    : (cache cacheCoins base).coinsAt txid = some entry.coins := by
  simp [coinsAt, found]

theorem coinsAt_cache_none (absent : cacheCoins.lookup txid = none)
    : (cache cacheCoins base).coinsAt txid = base.coinsAt txid := by
  simp [coinsAt, absent]

/-- A consistent view finds only coins that are cleaned up. -/
theorem Consistent.clean (consistent : view.Consistent) (found : view.coinsAt txid = some coins)
    : coins.Clean := by
  induction view with
  | db disk =>
    obtain ⟨stored, _, rfl⟩ := Option.map_eq_some_iff.mp found
    exact stored.clean_cleanup
  | cache cacheCoins base ih =>
    obtain ⟨below, entries⟩ := consistent
    cases cached : cacheCoins.lookup txid with
    | none => exact ih below (by rwa [coinsAt_cache_none cached] at found)
    | some entry =>
      rw [coinsAt_cache_some cached] at found
      cases found
      exact (entries txid entry cached).clean

/-- The view says the same, and keeps the entries that it has. -/
structure FilledFrom (filled view : CCoinsView) : Prop where
  consistent : filled.Consistent
  coinsAt : ∀ txid, filled.coinsAt txid = view.coinsAt txid
  holds : ∀ txid, view.Holds txid → filled.Holds txid

theorem FilledFrom.refl (consistent : view.Consistent)
    : view.FilledFrom view :=
  ⟨consistent, fun _ => rfl, fun _ => id⟩

/-- Entries keep their promises when the view below them fills its caches. -/
theorem EntryOk.of_filled (fills : filled.FilledFrom base) (ok : EntryOk base txid entry)
    : EntryOk filled txid entry where
  clean := ok.clean
  fresh isFresh := by
    rw [fills.coinsAt]
    exact ok.fresh isFresh
  backed notFresh := fills.holds txid (ok.backed notFresh)
  unchanged notDirty := by
    rw [fills.coinsAt]
    exact ok.unchanged notDirty

/-- Replacing one entry of a consistent cache, over a base that may have been filled. -/
theorem Consistent.put {value} (fills : filled.FilledFrom base)
    (entries : ∀ txid entry, cacheCoins.lookup txid = some entry → EntryOk base txid entry)
    (ok : ∀ entry ∈ value, EntryOk filled txid entry)
    : (cache (cacheCoins.put txid value) filled).Consistent := by
  refine ⟨fills.consistent, fun other entry found => ?_⟩
  rw [lookup_put] at found
  split at found
  next same =>
    subst same
    exact ok entry found
  · exact (entries other entry found).of_filled fills

/-- Away from the replaced entry a cache says the same. -/
theorem coinsAt_put_ne {other} (value : Option CCoinsCacheEntry) (fills : filled.FilledFrom base)
    (ne : other ≠ txid)
    : (cache (cacheCoins.put txid value) filled).coinsAt other
      = (cache cacheCoins base).coinsAt other := by
  simp only [coinsAt, lookup_put_ne _ _ ne, fills.coinsAt]

section

variable (fills : filled.FilledFrom base)
include fills

/-- A copy of what the base says, fresh if it is pruned, is a good entry. -/
theorem EntryOk.copy (found : base.coinsAt txid = some coins) (holds : filled.Holds txid)
    : EntryOk filled txid { coins, fresh := coins.isPruned } where
  clean := fills.consistent.clean (by rw [fills.coinsAt, found])
  fresh pruned := by
    rw [fills.coinsAt, found]
    rintro _ ⟨⟩
    exact pruned
  backed _ := holds
  unchanged _ := by rw [fills.coinsAt, found]

variable (entries : ∀ txid entry, cacheCoins.lookup txid = some entry → EntryOk base txid entry)
include entries

/-- Keeping a copy of what the base says fills the cache. -/
theorem FilledFrom.copy
    (absent : cacheCoins.lookup txid = none) (found : base.coinsAt txid = some coins)
    (holds : filled.Holds txid)
    : (cache
        (cacheCoins.put txid (some { coins, fresh := coins.isPruned })) filled).FilledFrom
        (.cache cacheCoins base) where
  consistent := .put fills entries (by
    rintro _ ⟨⟩
    exact .copy fills found holds)
  coinsAt other := by
    by_cases same : other = txid
    · subst same
      rw [coinsAt_cache_none absent, found]
      exact coinsAt_cache_some (lookup_put_self ..)
    · exact coinsAt_put_ne _ fills same
  holds other held := by
    simp only [Holds, lookup_put]
    split
    · rfl
    · exact held

/-- Filling the base fills the cache over it. -/
theorem FilledFrom.cache
    : (cache cacheCoins filled).FilledFrom (.cache cacheCoins base) where
  consistent := ⟨fills.consistent, fun txid entry found =>
    (entries txid entry found).of_filled fills⟩
  coinsAt txid := by simp only [CCoinsView.coinsAt, fills.coinsAt]
  holds _ := id

end

/-- What fetching an entry must do: tell the coins, fill the caches, and leave an entry
behind if there is one.
-/
structure Fetches (view : CCoinsView) (txid : Uint256) (found : Option CCoins)
    (filled : CCoinsView) : Prop where
  answer : found = view.coinsAt txid
  fills : filled.FilledFrom view
  holds : found.isSome → filled.Holds txid

theorem Fetches.fetchCoins {fetched} (consistent : (cache cacheCoins base).Consistent)
    (fetches : Fetches base txid fetched.1 fetched.2)
    : Fetches (.cache cacheCoins base) txid
        ((fetchCoins txid cacheCoins base fetched).1.map CCoinsCacheEntry.coins)
        (fetchCoins txid cacheCoins base fetched).2 := by
  have entries := consistent.2
  obtain ⟨found, filled⟩ := fetched
  obtain ⟨answer, fills, holds⟩ := fetches
  unfold CCoinsView.fetchCoins
  cases cached : cacheCoins.lookup txid with
  | some entry =>
    refine ⟨(coinsAt_cache_some cached).symm, .refl consistent, fun _ => ?_⟩
    simp [Holds, cached]
  | none =>
    have same := answer.trans (coinsAt_cache_none cached).symm
    cases found with
    | none => exact ⟨same, fills.cache entries, nofun⟩
    | some coins =>
      refine ⟨same, fills.copy entries cached answer.symm (holds rfl), fun _ => ?_⟩
      simp [Holds]

/-- `GetCoins` gives what the view says. -/
theorem Consistent.getCoins (consistent : view.Consistent) (txid : Uint256)
    : Fetches view txid (view.getCoins txid).1 (view.getCoins txid).2 := by
  induction view with
  | db disk => exact ⟨rfl, .refl trivial, fun _ => trivial⟩
  | cache cacheCoins base ih => exact .fetchCoins consistent (ih consistent.1)

/-- `HaveCoins` says whether the view finds coins with outputs. -/
theorem Consistent.haveCoins (consistent : (cache cacheCoins base).Consistent) (txid : Uint256)
    : ∃ filled, (cache cacheCoins base).haveCoins txid
        = .ok (((cache cacheCoins base).coinsAt txid).any (! ·.vout.isEmpty), filled)
      ∧ filled.FilledFrom (.cache cacheCoins base) := by
  obtain ⟨answer, fills, _⟩ := Fetches.fetchCoins consistent (consistent.1.getCoins txid)
  refine ⟨_, ?_, fills⟩
  rw [← answer, Option.any_map]
  rfl

theorem Spent.live_eq {found} (spent : Spent found) : live found = none := by
  simpa [live, Spent] using spent

/-- After an edit the view says that the coins are the edited ones, and is unchanged
elsewhere.
-/
structure Edited (view edited : CCoinsView) (txid : Uint256) (coins : CCoins) : Prop where
  consistent : edited.Consistent
  elsewhere : ∀ other, other ≠ txid → edited.coinsAt other = view.coinsAt other
  here : live (edited.coinsAt txid) = live (some coins)

/-- The end of a modifier, for an entry whose flags keep their promise. -/
theorem Edited.release (fills : filled.FilledFrom base)
    (entries : ∀ txid entry, cacheCoins.lookup txid = some entry → EntryOk base txid entry)
    (fresh : entry.fresh = true → Spent (base.coinsAt txid))
    (backed : entry.fresh = false → filled.Holds txid) (dirty : entry.dirty = true)
    : Edited (.cache cacheCoins base) (.cache (release txid entry cacheCoins) filled) txid
        entry.coins.cleanup := by
  have ok : EntryOk filled txid { entry with coins := entry.coins.cleanup } :=
    { clean := entry.coins.clean_cleanup
      fresh := fun isFresh => by
        rw [fills.coinsAt]
        exact fresh isFresh
      backed
      unchanged := fun notDirty => by
        simp only [dirty] at notDirty
        cases notDirty }
  by_cases dropped : (entry.fresh && entry.coins.isPruned) = true
  · have erased : CCoinsView.release txid entry cacheCoins = cacheCoins.put txid none := by
      simp only [CCoinsView.release, CCoins.isPruned_cleanup]
      exact if_pos dropped
    obtain ⟨isFresh, pruned⟩ := Bool.and_eq_true_iff.mp dropped
    rw [erased]
    refine ⟨.put fills entries nofun, fun other ne => coinsAt_put_ne _ fills ne, ?_⟩
    rw [coinsAt_cache_none (lookup_put_self ..), fills.coinsAt,
      (fresh isFresh).live_eq, live_pruned (by rw [CCoins.isPruned_cleanup, pruned])]
  · have kept : CCoinsView.release txid entry cacheCoins
        = cacheCoins.put txid (some { entry with coins := entry.coins.cleanup }) := by
      simp only [CCoinsView.release, CCoins.isPruned_cleanup]
      exact if_neg dropped
    rw [kept]
    refine ⟨.put fills entries (by rintro _ ⟨⟩; exact ok),
      fun other ne => coinsAt_put_ne _ fills ne, ?_⟩
    rw [coinsAt_cache_some (lookup_put_self ..)]

/-- The entry that a modifier gets has the coins of the view and good flags. -/
theorem acquire_spec (consistent : (cache cacheCoins base).Consistent) (txid : Uint256)
    : (acquire txid cacheCoins base).1.coins
        = ((cache cacheCoins base).coinsAt txid).getD .clear
      ∧ (acquire txid cacheCoins base).2.FilledFrom base
      ∧ ((acquire txid cacheCoins base).1.fresh = true → Spent (base.coinsAt txid))
      ∧ ((acquire txid cacheCoins base).1.fresh = false
          → (acquire txid cacheCoins base).2.Holds txid) := by
  obtain ⟨below, entries⟩ := consistent
  obtain ⟨answer, fills, holds⟩ := below.getCoins txid
  cases cached : cacheCoins.lookup txid with
  | some entry =>
    have ok := entries txid entry cached
    simp only [acquire, cached, coinsAt_cache_some cached, Option.getD_some]
    exact ⟨trivial, .refl below, ok.fresh, ok.backed⟩
  | none =>
    simp only [acquire, cached, coinsAt_cache_none cached, ← answer]
    cases found : base.getCoins txid with
    | mk coins filled =>
      rw [found] at answer fills holds
      cases coins with
      | none => exact ⟨rfl, fills, fun _ => nofun, nofun⟩
      | some coins =>
        refine ⟨rfl, fills, ?_, fun _ => holds rfl⟩
        rintro pruned _ ⟨⟩
        exact pruned

theorem Consistent.modifyCoins (consistent : (cache cacheCoins base).Consistent) (txid : Uint256)
    (edit : CCoins → CCoins)
    : ∃ edited, (cache cacheCoins base).modifyCoins txid edit = .ok edited
      ∧ Edited (.cache cacheCoins base) edited txid
        (edit (((cache cacheCoins base).coinsAt txid).getD .clear)).cleanup := by
  obtain ⟨coins, fills, fresh, backed⟩ := acquire_spec consistent txid
  refine ⟨_, rfl, ?_⟩
  rw [← coins]
  exact .release fills consistent.2 fresh backed rfl

/-- No cache of the stack and not the database hold unspent outputs of the transaction. -/
def NoneUnspent : CCoinsView → Uint256 → Prop
  | .db disk, txid => Spent ((disk.coins.lookup txid).map CCoins.cleanup)
  | .cache cacheCoins base, txid =>
    Spent ((cacheCoins.lookup txid).map CCoinsCacheEntry.coins) ∧ base.NoneUnspent txid

theorem NoneUnspent.spent (none : view.NoneUnspent txid)
    : Spent (view.coinsAt txid) := by
  induction view with
  | db disk => exact none
  | cache cacheCoins base ih =>
    obtain ⟨here, below⟩ := none
    cases cached : cacheCoins.lookup txid with
    | none =>
      rw [coinsAt_cache_none cached]
      exact ih below
    | some entry =>
      rw [coinsAt_cache_some cached]
      rwa [cached] at here

theorem Consistent.modifyNewCoins (consistent : (cache cacheCoins base).Consistent)
    (none : (cache cacheCoins base).NoneUnspent txid) (edit : CCoins → CCoins)
    : ∃ edited, (cache cacheCoins base).modifyNewCoins txid edit = .ok edited
      ∧ Edited (.cache cacheCoins base) edited txid (edit .clear).cleanup := by
  obtain ⟨below, entries⟩ := consistent
  exact ⟨_, rfl, .release (.refl below) entries (fun _ => none.2.spent) nofun rfl⟩

/-- Writing an entry of a child into a cache: the assertion holds, and the new entry keeps
the promise of its flags.
-/
theorem writeEntry_ok
    (entries : ∀ txid entry, cacheCoins.lookup txid = some entry → EntryOk base txid entry)
    (ok : EntryOk (.cache cacheCoins base) txid entry)
    : ∃ us, writeEntry entry (cacheCoins.lookup txid) = .ok us
      ∧ (∀ written ∈ us, EntryOk base txid written)
      ∧ live ((us.map CCoinsCacheEntry.coins).or (base.coinsAt txid))
        = live (some entry.coins) := by
  cases dirty : entry.dirty with
  | false =>
    refine ⟨cacheCoins.lookup txid, by simp [writeEntry, dirty], ?_, ?_⟩
    · intro written found
      exact entries txid written found
    · rw [← ok.unchanged dirty]
      cases cached : cacheCoins.lookup txid <;> simp [coinsAt, cached]
  | true =>
    cases cached : cacheCoins.lookup txid with
    | none =>
      have isFresh : entry.fresh = true := by
        rw [← Bool.not_eq_false]
        intro notFresh
        simpa [Holds, cached] using ok.backed notFresh
      have spent := ok.fresh isFresh
      rw [coinsAt_cache_none cached] at spent
      cases pruned : entry.coins.isPruned with
      | true =>
        refine ⟨none, by simp [writeEntry, pruned], nofun, ?_⟩
        simp [spent.live_eq, live_pruned pruned]
      | false =>
        refine ⟨some { coins := entry.coins, dirty := true, fresh := true },
          by simp [writeEntry, dirty, pruned, isFresh, throwIf], ?_, by simp⟩
        rintro _ ⟨⟩
        exact ⟨ok.clean, fun _ => spent, nofun, nofun⟩
    | some us =>
      have usOk := entries txid us cached
      by_cases dropped : (us.fresh && entry.coins.isPruned) = true
      · obtain ⟨isFresh, pruned⟩ := Bool.and_eq_true_iff.mp dropped
        refine ⟨none, by simp [writeEntry, dirty, isFresh, pruned], nofun, ?_⟩
        simp [(usOk.fresh isFresh).live_eq, live_pruned pruned]
      refine ⟨some { us with coins := entry.coins, dirty := true }, ?_, ?_, by simp⟩
      · simp only [writeEntry, dirty]
        rw [if_neg dropped]
        rfl
      · rintro _ ⟨⟩
        exact ⟨ok.clean, usOk.fresh, usOk.backed, nofun⟩

/-- Writing an entry into the database. -/
theorem writeEntryDB_ok {disk} (ok : EntryOk (.db disk) txid entry)
    : ∃ us, writeEntryDB entry (disk.coins.lookup txid) = .ok us
      ∧ live (us.map CCoins.cleanup) = live (some entry.coins) := by
  cases dirty : entry.dirty with
  | false =>
    refine ⟨disk.coins.lookup txid, by simp [writeEntryDB, dirty], ?_⟩
    rw [← ok.unchanged dirty]
    rfl
  | true =>
    cases pruned : entry.coins.isPruned with
    | true => exact ⟨none, by simp [writeEntryDB, dirty, pruned], (live_pruned pruned).symm⟩
    | false =>
      refine ⟨some entry.coins, by simp [writeEntryDB, dirty, pruned], ?_⟩
      rw [Option.map_some, ok.clean]

/-- Flushing a cache never fails, and the view below then says what the cache said. -/
theorem Consistent.batchWrite (consistent : (cache cacheCoins base).Consistent)
    : ∃ written, base.batchWrite cacheCoins = .ok written
      ∧ written.Consistent
      ∧ written.depth = base.depth
      ∧ ∀ txid, live (written.coinsAt txid)
        = live ((cache cacheCoins base).coinsAt txid) := by
  obtain ⟨below, entries⟩ := consistent
  cases base with
  | db disk =>
    obtain ⟨coins, run, values⟩ := merge_ok
      fun txid entry found => (writeEntryDB_ok (entries txid entry found)).imp fun _ => And.left
    refine ⟨.db { coins }, bind_ok.mpr ⟨coins, run, rfl⟩, trivial, rfl, fun txid => ?_⟩
    have value := values txid
    cases cached : cacheCoins.lookup txid with
    | none =>
      rw [cached, FiniteMap.Merged] at value
      rw [coinsAt_cache_none cached]
      simp only [coinsAt, value]
    | some entry =>
      obtain ⟨us, written, same⟩ := writeEntryDB_ok (entries txid entry cached)
      rw [cached, FiniteMap.Merged, written] at value
      cases value
      rw [coinsAt_cache_some cached]
      exact same
  | cache parentCoins grandparent =>
    obtain ⟨grandparentOk, parentEntries⟩ := below
    obtain ⟨coins, run, values⟩ := merge_ok
      fun txid entry found =>
        (writeEntry_ok parentEntries (entries txid entry found)).imp fun _ => And.left
    have entryAt : ∀ txid, (∀ written ∈ coins.lookup txid, EntryOk grandparent txid written)
        ∧ live ((cache coins grandparent).coinsAt txid)
          = live ((cache cacheCoins (.cache parentCoins grandparent)).coinsAt txid) := by
      intro txid
      have value := values txid
      cases cached : cacheCoins.lookup txid with
      | none =>
        rw [cached, FiniteMap.Merged] at value
        rw [coinsAt_cache_none cached, value]
        simp only [coinsAt, value]
        exact ⟨parentEntries txid, trivial⟩
      | some entry =>
        obtain ⟨us, written, ok, same⟩ := writeEntry_ok parentEntries (entries txid entry cached)
        rw [cached, FiniteMap.Merged, written] at value
        cases value
        rw [coinsAt_cache_some cached, ← same]
        refine ⟨ok, ?_⟩
        cases written : coins.lookup txid <;> simp [coinsAt, written]
    exact ⟨.cache coins grandparent, bind_ok.mpr ⟨coins, run, rfl⟩,
      ⟨grandparentOk, fun txid => (entryAt txid).1⟩, rfl, fun txid => (entryAt txid).2⟩

end CCoinsView

end Resistance.Coins

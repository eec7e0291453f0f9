import Resistance.Coins.Refinement
import Resistance.Coins.View

/-! Two effects of coins caches on the views below them, from `coins.cpp`: coins that are made
again in a cache that has removed them, and the best block and best anchors that a child hands to
its parent when it is flushed.
-/

namespace Resistance.Coins

open Primitives Consensus Lib Lib.Checks Function

namespace CCoinsView

/-- `ModifyNewCoins` with any outputs, and then a `ModifyCoins` for each output that is spent. -/
def recreate (txid : Uint256) (edit : CCoins → CCoins) (positions : List UInt32)
    (view : CCoinsView) : Except Failure CCoinsView := do
  positions.foldlM (fun view n => view.modifyCoins txid fun coins => (coins.spend n).getD coins)
    (← view.modifyNewCoins txid edit)

/-- The outputs at the positions are spent one after the other, and none is left. -/
def SpendsAll : CCoins → List UInt32 → Prop
  | coins, [] => coins.isPruned = true
  | coins, n :: positions => ∃ left, coins.spend n = some left ∧ SpendsAll left positions

/-- A cache that holds new coins of the transaction, unless they are pruned. -/
def Recreated (txid : Uint256) (coins : CCoins) (cacheCoins : CCoinsMap) : Prop :=
  cacheCoins.lookup txid
    = if coins.isPruned then none else some { coins, dirty := true, fresh := true }

theorem recreated_release (txid : Uint256) (coins : CCoins) (cacheCoins : CCoinsMap)
    : Recreated txid coins.cleanup
        (release txid { coins, dirty := true, fresh := true } cacheCoins) := by
  unfold Recreated release
  cases pruned : coins.isPruned with
  | true => simp [pruned]
  | false => simp [pruned]

variable {txid : Uint256} {cacheCoins : CCoinsMap}

/-- The modifiers work on the new entry and leave the base alone. -/
theorem Recreated.spendAll {coins positions} (base : CCoinsView)
    (recreated : Recreated txid coins cacheCoins) (spends : SpendsAll coins positions)
    : ∃ spent : CCoinsMap, positions.foldlM (fun view n =>
          modifyCoins txid (fun coins => (coins.spend n).getD coins) view)
          (.cache cacheCoins base) = .ok (.cache spent base)
      ∧ spent.lookup txid = none := by
  induction positions generalizing coins cacheCoins with
  | nil =>
    have pruned : coins.isPruned = true := spends
    exact ⟨cacheCoins, rfl, recreated.trans (if_pos pruned)⟩
  | cons n positions ih =>
    obtain ⟨left, spend, rest⟩ := spends
    obtain ⟨available, isLeft⟩ := CCoins.isAvailable_of_spend spend
    have unspent : coins.isPruned = false := by
      rw [← Bool.not_eq_true, CCoins.isPruned_iff]
      intro none
      rw [CCoins.isAvailable_iff, none] at available
      cases available
    rw [Recreated, unspent] at recreated
    have next := recreated_release txid left cacheCoins
    have clean : left.cleanup = left := isLeft ▸ CCoins.clean_cleanup _
    rw [clean] at next
    obtain ⟨spent, run, absent⟩ := ih next rest
    refine ⟨spent, foldlM_cons_ok.mpr ⟨_, ?_, run⟩, absent⟩
    simp [modifyCoins, acquire, recreated, spend]

/-- Whatever the cache holds: new coins that are spent again leave no unspent output in the cache
and after a flush in its base exactly if the base had none.
-/
theorem recreate_spent_iff {cacheCoins : CCoinsMap} {base : CCoinsView} {txid : Uint256}
    (edit : CCoins → CCoins) {positions : List UInt32}
    (spends : SpendsAll (edit .clear).cleanup positions)
    : ∃ after, recreate txid edit positions (.cache cacheCoins base) = .ok after
      ∧ (Spent (after.coinsAt txid)
          ∧ (∀ flushed, after.flush = .ok flushed → Spent (flushed.coinsAt txid))
        ↔ Spent (base.coinsAt txid)) := by
  obtain ⟨spent, run, absent⟩ :=
    (recreated_release txid (edit .clear) cacheCoins).spendAll base spends
  refine ⟨.cache spent base, run, ?_⟩
  rw [coinsAt_cache_none absent]
  refine ⟨And.left, fun none => ⟨none, fun flushed flush => ?_⟩⟩
  obtain ⟨written, write, ⟨⟩⟩ := bind_ok.mp flush
  rw [coinsAt_cache_none rfl]
  cases base
  all_goals
    obtain ⟨coins, merged, ⟨⟩⟩ := bind_ok.mp write
    simpa only [coinsAt, FiniteMap.merge_absent absent merged] using none

/-- One output of a transaction, as the sample database holds it. -/
def sampleCoins : CCoins := { vout := [{ nValue := 1, scriptPubKey := [] }], nHeight := 1 }

/-- The cache below removed the output of the database. -/
theorem recreate_spent_iff_removed
    : ∃ removed after, modifyCoins .null (fun _ => .clear)
          (.cache ∅ (.db { coins := AList.singleton .null sampleCoins })) = .ok removed
      ∧ recreate .null (fun _ => sampleCoins) [0] (.cache ∅ removed) = .ok after
      ∧ Spent (after.coinsAt .null)
      ∧ ∀ flushed, after.flush = .ok flushed → Spent (flushed.coinsAt .null) := by
  have spends : SpendsAll sampleCoins.cleanup [0] := ⟨_, rfl, rfl⟩
  refine ⟨_, (recreate_spent_iff (fun _ => sampleCoins) spends).imp
    fun after result => ⟨rfl, result.1, result.2.mpr ?_⟩⟩
  rintro _ ⟨⟩
  rfl

/-- The database has an unspent output, the cache removes it, makes it again and spends it: the
cache shows the output of the database.
-/
theorem recreate_resurrects
    : ∃ removed after, modifyCoins .null (fun _ => .clear)
          (.cache ∅ (.db { coins := AList.singleton .null sampleCoins })) = .ok removed
      ∧ Spent (removed.coinsAt .null)
      ∧ recreate .null (fun _ => sampleCoins) [0] removed = .ok after
      ∧ ¬ Spent (after.coinsAt .null) := by
  refine ⟨_, _, rfl, ?_, rfl, ?_⟩
  · rintro _ ⟨⟩
    rfl
  · intro spent
    exact absurd (spent sampleCoins rfl) (by decide)

end CCoinsView

/-- What a view keeps one hash of: the best block, and the best anchor of each pool. -/
inductive Best where
  | block
  | anchor (type : ShieldedType)
  deriving DecidableEq

/-- The best hashes in a stack of caches over the database. In a cache the null hash means that
the base has not been asked.
-/
inductive BestView where
  | db (stored : Best → Option Uint256)
  | cache (hashes : Best → Uint256) (base : BestView)

namespace BestView

def batchWrite (hashesIn : Best → Uint256) : BestView → BestView
  | .db stored => .db fun best =>
    if hashesIn best ≠ .null then some (hashesIn best) else stored best
  | .cache _ base => .cache hashesIn base

variable (emptyRoot : ShieldedType → Uint256)

/-- What the database says where nothing is stored. -/
def absent : Best → Uint256
  | .block => .null
  | .anchor type => emptyRoot type

/-- `GetBestBlock` and `GetBestAnchor`: the hash, and the view with the caches filled. -/
def getBest (best : Best) : BestView → Uint256 × BestView
  | .db stored => ((stored best).getD (absent emptyRoot best), .db stored)
  | .cache hashes base =>
    if hashes best = .null then
      let (hash, base) := base.getBest best
      (hash, .cache (Function.update hashes best hash) base)
    else (hashes best, .cache hashes base)

/-- What the view reports. -/
def report (view : BestView) (best : Best) : Uint256 := (view.getBest emptyRoot best).1

/-- A child with these hashes lies over the base, and `SetBestBlock`, `PushAnchor` and `PopAnchor`
were never called in it.
-/
inductive Untouched : (Best → Uint256) → BestView → Prop where
  | created (parent : BestView) : Untouched (fun _ => .null) parent
  | read {hashes base hash hashes' base'} (best : Best) (child : Untouched hashes base)
    (asked : (BestView.cache hashes base).getBest emptyRoot best = (hash, .cache hashes' base'))
    : Untouched hashes' base'
  | flushed {hashes base} (child : Untouched hashes base)
    : Untouched hashes (base.batchWrite hashes)

/-- Forgetting what the view holds itself does not change what it reports. -/
def Loaded : BestView → Best → Prop
  | .db _, _ => True
  | .cache hashes base, best => hashes best = .null ∨ hashes best = base.report emptyRoot best

variable {emptyRoot}

theorem report_cache (hashes : Best → Uint256) (base : BestView) (best : Best)
    : (BestView.cache hashes base).report emptyRoot best
      = if hashes best = .null then base.report emptyRoot best else hashes best := by
  rw [report, getBest]
  split <;> rfl

/-- Asking fills the caches, and every report stays the same. -/
theorem report_getBest (view : BestView) (best other : Best)
    : (view.getBest emptyRoot best).2.report emptyRoot other = view.report emptyRoot other := by
  induction view with
  | db stored => rfl
  | cache hashes base ih =>
    rw [getBest]
    split
    next unknown =>
      simp only [report_cache, ih]
      by_cases same : other = best
      · subst same
        rw [update_self, if_pos unknown]
        exact ite_eq_right_iff.mpr fun _ => rfl
      · rw [update_of_ne same]
    next => rfl

/-- What a child knows without having been told is what its base reports. -/
theorem Untouched.agrees {hashes base} (child : Untouched emptyRoot hashes base) (best : Best)
    (known : hashes best ≠ .null)
    : base.report emptyRoot best = hashes best := by
  induction child with
  | created parent => exact absurd rfl known
  | read asked child run ih =>
    rw [getBest] at run
    split at run
    next unknown =>
      cases run
      rw [report_getBest]
      by_cases same : best = asked
      · subst same
        rw [update_self]
        rfl
      · rw [update_of_ne same] at known ⊢
        exact ih known
    next =>
      cases run
      exact ih known
  | @flushed hashes base child ih =>
    cases base with
    | db stored => simp [batchWrite, report, getBest, known]
    | cache _ base => rw [batchWrite, report_cache, if_neg known]

/-- Flushing a child in which nothing was set leaves the reports of its parent as they are exactly
if the parent has nothing of its own where the child does not know the hash.
-/
theorem flush_untouched_iff {hashes : Best → Uint256} {base : BestView}
    (child : Untouched emptyRoot hashes base)
    : (∀ best, (base.batchWrite hashes).report emptyRoot best = base.report emptyRoot best)
      ↔ ∀ best, hashes best = .null → base.Loaded emptyRoot best := by
  refine forall_congr' fun best => ?_
  by_cases unknown : hashes best = .null
  · rw [forall_prop_of_true unknown]
    cases base with
    | db stored => simp [batchWrite, report, getBest, unknown, Loaded]
    | cache here base =>
      simp only [batchWrite, report_cache, if_pos unknown, Loaded]
      split
      next null => exact iff_of_true rfl (.inl null)
      next told => rw [or_iff_right told, eq_comm]
  · rw [child.agrees best unknown]
    refine iff_of_true ?_ fun null => absurd null unknown
    exact child.flushed.agrees best unknown

/-- The database has what the parent was told. -/
theorem flush_untouched_iff_stored
    : let told : Uint256 := .replicate 32 1
      let parent := BestView.cache (fun _ => told) (.db fun _ => some told)
      parent.report (fun _ => .null) .block = told
      ∧ ∀ best, (parent.batchWrite fun _ => .null).report (fun _ => .null) best
        = parent.report (fun _ => .null) best :=
  ⟨by decide, (flush_untouched_iff (.created _)).mpr fun _ _ => .inr rfl⟩

/-- A parent was told its best block, which the database does not have yet, and an unused child is
flushed into it.
-/
theorem flush_untouched_forgets
    : let told : Uint256 := .replicate 32 1
      let parent := BestView.cache (fun _ => told) (.db fun _ => none)
      Untouched (fun _ => .null) (fun _ => .null) parent
      ∧ parent.report (fun _ => .null) .block = told
      ∧ (parent.batchWrite fun _ => .null).report (fun _ => .null) .block = .null :=
  ⟨.created _, by decide, by decide⟩

end BestView

end Resistance.Coins

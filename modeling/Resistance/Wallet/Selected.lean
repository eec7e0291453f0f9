import Mathlib.Data.List.Flatten
import Resistance.Wallet.CoinSelection

/-! Selected coins are distinct coins of the wallet, their values add up to what is returned,
and that is at least the target, as long as no sum leaves the range of `CAmount`.
-/

namespace Resistance.Wallet

open List Primitives Consensus Lib Lib.Masks MachineInt

/-! Sums of coins. -/

/-- The value of some coins. -/
def sumOf (coins : List Coin) : Int := (coins.map fun coin => coin.value.toInt).sum

/-- Different coins whose values do not overflow when they are added. -/
structure Bounded (coins : List Coin) : Prop where
  distinct : coins.Nodup
  nonneg : ∀ coin ∈ coins, 0 ≤ coin.value.toInt
  bound : sumOf coins < 2 ^ 63

variable {coins others : List Coin} {coin : Coin}

@[simp] theorem sumOf_nil : sumOf [] = 0 := rfl

@[simp] theorem sumOf_cons : sumOf (coin :: coins) = coin.value.toInt + sumOf coins := by
  simp [sumOf]

@[simp] theorem sumOf_append : sumOf (coins ++ others) = sumOf coins + sumOf others := by
  simp [sumOf]

theorem sumOf_perm (same : coins.Perm others) : sumOf coins = sumOf others :=
  (same.map _).sum_eq

theorem sumOf_nonneg (nonneg : ∀ coin ∈ coins, 0 ≤ coin.value.toInt) : 0 ≤ sumOf coins :=
  sum_nonneg (forall_mem_map.mpr nonneg)

theorem Bounded.sublist (bounded : Bounded others) (part : coins.Sublist others) : Bounded coins
    where
  distinct := bounded.distinct.sublist part
  nonneg := fun coin mem => bounded.nonneg coin (part.subset mem)
  bound := ((part.map _).sum_le_sum (forall_mem_map.mpr bounded.nonneg)).trans_lt bounded.bound

theorem Bounded.perm (bounded : Bounded others) (same : coins.Perm others) : Bounded coins where
  distinct := same.nodup_iff.mpr bounded.distinct
  nonneg := fun coin mem => bounded.nonneg coin (same.subset mem)
  bound := (sumOf_perm same).trans_lt bounded.bound

/-- Distinct coins from bounded ones are bounded. -/
theorem Bounded.subset (bounded : Bounded others) (distinct : coins.Nodup) (inside : coins ⊆ others)
    : Bounded coins := by
  obtain ⟨part, same, sublist⟩ := subperm_of_subset distinct inside
  exact (bounded.sublist sublist).perm same.symm

/-- Adding up bounded coins is exact. -/
theorem Bounded.toInt_foldl (bounded : Bounded coins)
    : (coins.foldl (fun value (coin : Coin) => value + coin.value) 0).toInt = sumOf coins := by
  have sum : coins.foldl (fun value (coin : Coin) => value + coin.value) 0
      = 0 + Int64.ofInt (sumOf coins) :=
    foldl_ofInt (fun a coin => by rw [Int64.ofInt_toInt]) coins 0
  have low := sumOf_nonneg bounded.nonneg
  rw [sum, Int64.zero_add]
  exact toInt_ofInt ⟨by omega, bounded.bound⟩

/-- Different coins from a list, whose value is what is returned. -/
structure Pays (pool : List Coin) (selection : Selection) : Prop where
  distinct : selection.setCoinsRet.Nodup
  inside : selection.setCoinsRet ⊆ pool
  value : selection.nValueRet.toInt = sumOf selection.setCoinsRet

/-- Inserting distinct coins one after the other. -/
theorem foldl_insert_perm {set coins : List Coin} (distinct : (set ++ coins).Nodup)
    : (coins.foldl (fun set coin => set.insert coin) set).Perm (set ++ coins) := by
  induction coins generalizing set with
  | nil =>
    rw [append_nil]
    exact .refl _
  | cons coin coins ih =>
    have new : coin ∉ set := fun mem =>
      (nodup_append.mp distinct).2.2 coin mem coin mem_cons_self rfl
    have moved : (coin :: set ++ coins).Perm (set ++ coin :: coins) := perm_middle.symm
    rw [foldl_cons, insert_of_not_mem new]
    exact (ih (moved.nodup_iff.mpr distinct)).trans moved

theorem foldl_take_eq (coins : List Coin) (selection : Selection)
    : (coins.map fun coin => (coin.value, coin)).foldl Selection.take selection
      = {
        setCoinsRet := coins.foldl (fun set coin => set.insert coin) selection.setCoinsRet
        nValueRet := coins.foldl (fun value coin => value + coin.value) selection.nValueRet
      } := by
  induction coins generalizing selection with
  | nil => rfl
  | cons coin coins ih => exact ih (selection.take (coin.value, coin))

/-- A set of coins that is taken from the start. -/
theorem foldl_take_pays {pool} (bounded : Bounded pool) (part : coins.Sublist pool)
    : Pays pool ((coins.map fun coin => (coin.value, coin)).foldl Selection.take {})
      ∧ ((coins.map fun coin => (coin.value, coin)).foldl Selection.take {}).nValueRet.toInt
        = sumOf coins := by
  have taken := bounded.sublist part
  have same : (coins.foldl (fun set coin => set.insert coin) []).Perm coins :=
    foldl_insert_perm taken.distinct
  have sum := taken.toInt_foldl
  rw [foldl_take_eq]
  refine ⟨⟨same.nodup_iff.mpr taken.distinct, fun coin mem => ?_, ?_⟩, sum⟩
  · exact part.subset (same.subset mem)
  · exact sum.trans (sumOf_perm same).symm

/-- The same, where the value is at least the target. -/
structure Reaches (pool : List Coin) (nTargetValue : CAmount) (selection : Selection) : Prop
    extends Pays pool selection where
  enough : nTargetValue ≤ selection.nValueRet

variable {pool more : List Coin} {selection : Selection} {nTargetValue : CAmount}

theorem Reaches.mono (reaches : Reaches pool nTargetValue selection) (inside : pool ⊆ more)
    : Reaches more nTargetValue selection :=
  ⟨⟨reaches.distinct, fun _ mem => inside (reaches.inside mem), reaches.value⟩, reaches.enough⟩

theorem foldl_take_reaches (bounded : Bounded pool) (part : coins.Sublist pool)
    (enough : nTargetValue.toInt ≤ sumOf coins)
    : Reaches pool nTargetValue
        ((coins.map fun coin => (coin.value, coin)).foldl Selection.take {}) := by
  obtain ⟨pays, value⟩ := foldl_take_pays bounded part
  exact ⟨pays, Int64.le_iff_toInt_le.mpr (value ▸ enough)⟩

theorem take_reaches (bounded : Bounded pool) (mem : coin ∈ pool)
    (enough : nTargetValue ≤ coin.value)
    : Reaches pool nTargetValue (({} : Selection).take (coin.value, coin)) := by
  refine foldl_take_reaches bounded (singleton_sublist.mpr mem) ?_
  simpa using Int64.le_iff_toInt_le.mp enough

/-- Preset coins are added to coins from the others that make up the rest. -/
theorem Pays.withPreset {preset} (bounded : Bounded (preset ++ pool)) (pays : Pays pool selection)
    {nPreset} (value : nPreset.toInt = sumOf preset)
    (enough : nTargetValue.toInt ≤ selection.nValueRet.toInt + nPreset.toInt)
    : Reaches (preset ++ pool) nTargetValue {
        setCoinsRet := preset.foldl (fun set coin => set.insert coin) selection.setCoinsRet
        nValueRet := selection.nValueRet + nPreset
      } := by
  have part : selection.setCoinsRet ++ preset ⊆ preset ++ pool :=
    append_subset.mpr ⟨fun coin mem => mem_append_right _ (pays.inside mem), subset_append_left _ _⟩
  obtain ⟨isPreset, -, disjoint⟩ := nodup_append.mp bounded.distinct
  have distinct : (selection.setCoinsRet ++ preset).Nodup := by
    refine nodup_append.mpr ⟨pays.distinct, isPreset, fun coin isOther _ isPreset same => ?_⟩
    exact disjoint _ isPreset coin (pays.inside isOther) same.symm
  have taken := bounded.subset distinct part
  have same := foldl_insert_perm distinct
  have low := sumOf_nonneg taken.nonneg
  have total := taken.bound
  rw [sumOf_append, ← pays.value, ← value] at low total
  have sum := toInt_add ⟨by omega, total⟩
  refine ⟨⟨same.nodup_iff.mpr distinct, fun coin mem => part (same.subset mem), ?_⟩, ?_⟩
  · rw [sumOf_perm same, sumOf_append, sum, pays.value, value]
  · rw [Int64.le_iff_toInt_le, sum]
    exact enough

/-! The loop over the coins. -/

section Scan

variable {nTargetValue : CAmount} {nConfMine nConfTheirs : Int} {vCoins : List COutput}
  {tally : Tally}

theorem scanCoins_exact
    (found : scanCoins nTargetValue nConfMine nConfTheirs vCoins tally = .exact coin)
    : coin ∈ vCoins.map COutput.coin ∧ coin.value = nTargetValue := by
  fun_induction scanCoins nTargetValue nConfMine nConfTheirs vCoins tally with
  | case1 => cases found
  | case3 _ _ _ _ _ _ value =>
    obtain rfl := Scan.exact.inj found
    exact ⟨mem_cons_self, value⟩
  | _ =>
    rename_i ih
    exact (ih found).imp_left (mem_cons_of_mem _)

/-- Coins below the target are collected, and the smallest of the larger ones is kept. -/
theorem scanCoins_collected {after}
    (collected : scanCoins nTargetValue nConfMine nConfTheirs vCoins tally = .collected after)
    : ∃ taken : List Coin, taken.Sublist (vCoins.map COutput.coin)
      ∧ after.vValue = tally.vValue ++ taken.map (fun coin => (coin.value, coin))
      ∧ after.nTotalLower = taken.foldl (fun value coin => value + coin.value) tally.nTotalLower
      ∧ (after.coinLowestLarger = tally.coinLowestLarger
        ∨ ∃ coin ∈ vCoins.map COutput.coin, after.coinLowestLarger = (coin.value, some coin)
          ∧ nTargetValue + cent ≤ coin.value) := by
  have later {output : COutput} {vCoins : List COutput} {P : Coin → Prop}
      : (∃ coin ∈ vCoins.map COutput.coin, P coin)
        → ∃ coin ∈ (output :: vCoins).map COutput.coin, P coin :=
    fun ⟨coin, mem, holds⟩ => ⟨coin, mem_cons_of_mem _ mem, holds⟩
  fun_induction scanCoins nTargetValue nConfMine nConfTheirs vCoins tally with
  | case1 =>
    cases collected
    exact ⟨[], .slnil, (append_nil _).symm, rfl, .inl rfl⟩
  | case3 => cases collected
  | case4 output _ _ _ _ _ _ _ ih =>
    obtain ⟨taken, part, values, sum, lowest⟩ := ih collected
    refine ⟨output.coin :: taken, part.cons_cons _, ?_, sum, lowest.imp_right later⟩
    rw [values, append_assoc]
    rfl
  | case5 output _ _ _ _ _ _ notLower _ ih =>
    obtain ⟨taken, part, values, sum, lowest⟩ := ih collected
    refine ⟨taken, part.cons _, values, sum, .inr ?_⟩
    rcases lowest with same | larger
    · exact ⟨output.coin, mem_cons_self, same, Int64.not_lt.mp notLower⟩
    · exact later larger
  | _ =>
    rename_i ih
    obtain ⟨taken, part, values, sum, lowest⟩ := ih collected
    exact ⟨taken, part.cons _, values, sum, lowest.imp_right later⟩

end Scan

/-! Subset sums. -/

section Subsets

/-- The sum of amounts as integers. -/
def sumAmounts (values : List CAmount) : Int := (values.map Int64.toInt).sum

variable {values : List CAmount} {nTargetValue : CAmount} {subset : Subset}

/-- The best subset so far has the value that is recorded, and reaches the target. -/
structure BestOk (values : List CAmount) (nTargetValue : CAmount) (subset : Subset) : Prop where
  best : subset.nBest.toInt = sumAmounts (picked values subset.vfBest)
  enough : nTargetValue ≤ subset.nBest

/-- The same of the current subset, while the coins are gone through. -/
structure Running (values : List CAmount) (nTargetValue : CAmount) (subset : Subset) : Prop
    extends BestOk values nTargetValue subset where
  length : subset.vfIncluded.length = values.length
  total : subset.nTotal.toInt = sumAmounts (picked values subset.vfIncluded)

/-- Sums of the values never overflow. -/
structure Addable (values : List CAmount) : Prop where
  nonneg : ∀ value ∈ values, 0 ≤ value.toInt
  bound : sumAmounts values < 2 ^ 63

theorem Addable.picked (addable : Addable values) (mask : List Bool)
    : 0 ≤ sumAmounts (picked values mask) ∧ sumAmounts (picked values mask) < 2 ^ 63 := by
  have part := picked_sublist values mask
  have nonneg : ∀ x ∈ values.map Int64.toInt, 0 ≤ x := forall_mem_map.mpr addable.nonneg
  refine ⟨sum_nonneg fun x mem => nonneg x ((part.map _).subset mem), ?_⟩
  exact ((part.map _).sum_le_sum nonneg).trans_lt addable.bound

/-- A round of the innermost loop, for a coin that is not included yet. -/
theorem Running.includeCoin (running : Running values nTargetValue subset)
    (addable : Addable values) (pick : Nat → Bool → Bool) {i} (bound : i < values.length)
    (absent : pick i (subset.vfIncluded.getD i false) = true
      → subset.vfIncluded[i]? = some false)
    : Running values nTargetValue (Wallet.includeCoin values nTargetValue pick subset i)
      ∧ ∀ j, j ≠ i → (Wallet.includeCoin values nTargetValue pick subset i).vfIncluded[j]?
        = subset.vfIncluded[j]? := by
  rw [Wallet.includeCoin]
  split
  next picks =>
    have place := absent picks
    have element : values[i]? = some (values.getD i 0) := by
      rw [getD_eq_getElem?_getD, getElem?_eq_getElem bound, Option.getD_some]
    have larger : sumAmounts (picked values (subset.vfIncluded.set i true))
        = (values.getD i 0).toInt + sumAmounts (picked values subset.vfIncluded) := by
      have same := (picked_set element place).map Int64.toInt
      rw [sumAmounts, same.sum_eq, map_cons, sum_cons, sumAmounts]
    have range := addable.picked (subset.vfIncluded.set i true)
    have total : (subset.nTotal + values.getD i 0).toInt
        = sumAmounts (picked values (subset.vfIncluded.set i true)) := by
      rw [toInt_add ⟨by rw [running.total]; omega, by rw [running.total]; omega⟩,
        running.total, larger, Int.add_comm]
    have undone : (subset.vfIncluded.set i true).set i false = subset.vfIncluded := by
      rw [set_set]
      refine ext_getElem? fun j => ?_
      by_cases same : i = j
      · subst same
        rw [getElem?_set_self (by rw [running.length]; exact bound), place]
      · rw [getElem?_set_ne same]
    dsimp only
    rw [undone, Int64.add_sub_cancel]
    split
    next reached =>
      refine ⟨⟨⟨?_, ?_⟩, running.length, running.total⟩, fun _ _ => rfl⟩
      · split
        next => exact total
        next => exact running.best
      · split
        next => exact reached
        next => exact running.enough
    next =>
      refine ⟨⟨⟨running.best, running.enough⟩, ?_, total⟩, fun j ne => getElem?_set_ne ne.symm⟩
      rw [length_set, running.length]
  next => exact ⟨running, fun _ _ => rfl⟩

theorem BestOk.repeatSubset (bestOk : BestOk values nTargetValue subset) (addable : Addable values)
    (flip : Nat → Bool)
    : BestOk values nTargetValue (Wallet.repeatSubset values nTargetValue flip subset) := by
  have begun : Running values nTargetValue { subset with
      vfIncluded := replicate values.length false
      nTotal := 0
      fReachedTarget := false } := by
    refine ⟨⟨bestOk.best, bestOk.enough⟩, length_replicate, ?_⟩
    rw [picked_none]
    rfl
  -- In the first pass no coin is included before its turn.
  have first := foldl_range
    (P := fun i subset => Running values nTargetValue subset
      ∧ ∀ j, i ≤ j → j < values.length → subset.vfIncluded[j]? = some false)
    ⟨begun, fun j _ bound => by simp [bound]⟩
    fun i subset bound ⟨running, absent⟩ => by
      obtain ⟨next, others⟩ := running.includeCoin addable (fun i _ => flip i) bound
        fun _ => absent i le_rfl bound
      refine ⟨next, fun j above inside => ?_⟩
      rw [others j (Nat.ne_of_gt above)]
      exact absent j (Nat.le_of_succ_le above) inside
  rw [Wallet.repeatSubset]
  split
  next => exact first.1.toBestOk
  next =>
    refine (foldl_range (P := fun _ subset => Running values nTargetValue subset)
      first.1 fun i subset bound running => ?_).toBestOk
    refine (running.includeCoin addable _ bound fun picks => ?_).1
    have inside : i < subset.vfIncluded.length := running.length ▸ bound
    rw [getD_eq_getElem?_getD, getElem?_eq_getElem inside, Option.getD_some,
      Bool.not_eq_true'] at picks
    rw [getElem?_eq_getElem inside, picks]

/-- The approximation returns a subset that reaches the target, and its value. -/
theorem approximateBestSubset_ok (addable : Addable values) {nTotalLower}
    (total : nTotalLower.toInt = sumAmounts values) (enough : nTargetValue ≤ nTotalLower)
    (flip : Nat → Nat → Bool) (iterations : Nat)
    : BestOk values nTargetValue
        (approximateBestSubset flip values nTotalLower nTargetValue iterations) := by
  refine foldl_range (P := fun _ subset => BestOk values nTargetValue subset) ⟨?_, enough⟩
    fun nRep subset _ bestOk => ?_
  · rw [picked_all]
    exact total
  · split
    next => exact bestOk.repeatSubset addable (flip nRep)
    next => exact bestOk

end Subsets

/-! Selection. -/

section Select

variable {vCoins : List COutput} {selection : Selection} {nTargetValue : CAmount}

/-- The values of distinct coins of the list. -/
theorem Bounded.addable (bounded : Bounded coins)
    : Addable (coins.map Coin.value) ∧ sumAmounts (coins.map Coin.value) = sumOf coins := by
  have same : sumAmounts (coins.map Coin.value) = sumOf coins := by
    rw [sumAmounts, map_map]
    rfl
  exact ⟨⟨forall_mem_map.mpr bounded.nonneg, same ▸ bounded.bound⟩, same⟩

/-- Coins with their values stay that when they are sorted. -/
theorem sorted_coins {sorted taken} (same : sorted.Perm (taken.map fun coin => (coin.value, coin)))
    : ∃ order : List Coin, order.Perm taken
      ∧ sorted = order.map fun coin => (coin.value, coin) := by
  refine ⟨sorted.map Prod.snd, ?_, ?_⟩
  · have coins := same.map Prod.snd
    rw [map_map] at coins
    exact coins.trans (.of_eq (map_id taken))
  · rw [map_map]
    refine (map_id sorted).symm.trans (map_congr_left fun pair mem => ?_)
    obtain ⟨coin, -, rfl⟩ := mem_map.mp (same.subset mem)
    rfl

/-- The best subset that `SelectCoinsMinConf` tries reaches the target. -/
theorem bestSubset_ok (bounded : Bounded coins) {nTotalLower}
    (total : nTotalLower.toInt = sumOf coins) (enough : nTargetValue ≤ nTotalLower)
    (withCent : nTargetValue ≤ nTargetValue + cent) (chance : Chance) (call : Nat)
    : BestOk (coins.map Coin.value) nTargetValue
        (bestSubset chance call (coins.map Coin.value) nTotalLower nTargetValue) := by
  obtain ⟨addable, same⟩ := bounded.addable
  rw [← same] at total
  rw [bestSubset]
  split
  next retry =>
    have second := approximateBestSubset_ok addable total retry.2 (chance.flip call 1) 1000
    exact ⟨second.best, Int64.le_trans withCent second.enough⟩
  next => exact approximateBestSubset_ok addable total enough (chance.flip call 0) 1000

/-- `SelectCoinsMinConf` selects coins that reach the target. -/
theorem selectCoinsMinConf_ok {chance call nConfMine nConfTheirs}
    (bounded : Bounded (vCoins.map COutput.coin)) (room : nTargetValue.toInt + cent.toInt < 2 ^ 63)
    (pos : 0 ≤ nTargetValue.toInt)
    (selected : selectCoinsMinConf chance call nTargetValue nConfMine nConfTheirs vCoins
      = some selection)
    : Reaches (vCoins.map COutput.coin) nTargetValue selection := by
  have shuffled := (chance.shuffle_perm call vCoins).map COutput.coin
  replace bounded := bounded.perm shuffled
  refine Reaches.mono ?_ shuffled.subset
  have withCent : nTargetValue ≤ nTargetValue + cent := by
    have value : cent.toInt = 1000000 := rfl
    rw [Int64.le_iff_toInt_le, toInt_add ⟨by omega, by omega⟩]
    omega
  rw [selectCoinsMinConf] at selected
  split at selected
  next coin found =>
    obtain ⟨mem, value⟩ := scanCoins_exact found
    cases selected
    exact take_reaches bounded mem (value ▸ Int64.le_refl _)
  next tally collected =>
    obtain ⟨taken, part, values, sum, lowest⟩ := scanCoins_collected collected
    rw [nil_append] at values
    have takenBounded := bounded.sublist part
    have total : tally.nTotalLower.toInt = sumOf taken := by
      rw [sum]
      exact takenBounded.toInt_foldl
    have larger : ∀ coin, tally.coinLowestLarger.2 = some coin
        → Reaches ((chance.shuffle call vCoins).map COutput.coin) nTargetValue
            (({} : Selection).take (tally.coinLowestLarger.1, coin)) := by
      intro coin isLowest
      rcases lowest with none | ⟨found, mem, isFound, atLeast⟩
      · rw [none] at isLowest
        cases isLowest
      · rw [isFound] at isLowest ⊢
        cases isLowest
        exact take_reaches bounded mem (Int64.le_trans withCent atLeast)
    dsimp only at selected
    split at selected
    next reached =>
      cases selected
      rw [values]
      exact foldl_take_reaches bounded part (total ▸ reached ▸ Int.le_refl _)
    next =>
      split at selected
      next =>
        obtain ⟨coin, isLowest, rfl⟩ := Option.map_eq_some_iff.mp selected
        exact larger coin isLowest
      next notBelow =>
        have sorted : (tally.vValue.mergeSort fun a b => a.1 ≥ b.1).Perm
            (taken.map fun coin => (coin.value, coin)) :=
          values ▸ mergeSort_perm tally.vValue _
        obtain ⟨order, same, isOrder⟩ := sorted_coins sorted
        have orderBounded := takenBounded.perm same
        have best := bestSubset_ok orderBounded (total.trans (sumOf_perm same).symm)
          (Int64.not_lt.mp notBelow) withCent chance call
        have firsts : (order.map fun coin => (coin.value, coin)).map Prod.fst
            = order.map Coin.value := map_map
        rw [isOrder, firsts] at selected
        generalize bestSubset _ _ _ _ _ = subset at selected best
        split at selected
        next coin isLarger =>
          cases selected
          refine larger coin ?_
          split at isLarger
          next found _ =>
            split at isLarger
            · cases isLarger
              assumption
            · cases isLarger
          next => cases isLarger
        next =>
          cases selected
          have isBest : subset.nBest.toInt = sumOf (picked order subset.vfBest) := by
            rw [best.best, picked_map, sumAmounts, map_map]
            rfl
          rw [picked_map]
          refine (foldl_take_reaches orderBounded (picked_sublist order _)
            (isBest ▸ Int64.le_iff_toInt_le.mp best.enough)).mono fun coin mem => ?_
          exact part.subset (same.subset mem)

end Select

/-! The coins of the wallet. -/

namespace CWallet

variable (wallet : CWallet)

/-- All outputs of the wallet's transactions. -/
def allCoins : List Coin :=
  wallet.mapWallet.flatMap fun tx => (List.range tx.vout.length).map fun i => (tx, i)

variable {wallet}

theorem mem_allCoins
    : coin ∈ wallet.allCoins ↔ coin.1 ∈ wallet.mapWallet ∧ coin.2 < coin.1.vout.length := by
  obtain ⟨tx, i⟩ := coin
  simp only [allCoins, mem_flatMap, mem_map, mem_range, Prod.mk.injEq]
  constructor
  · rintro ⟨_, mem, _, bound, rfl, rfl⟩
    exact ⟨mem, bound⟩
  · rintro ⟨mem, bound⟩
    exact ⟨tx, mem, i, bound, rfl, rfl⟩

theorem nodup_allCoins (wallet : CWallet) : wallet.allCoins.Nodup := by
  refine nodup_flatMap.mpr ⟨fun tx _ => ?_, ?_⟩
  · exact nodup_range.map fun i j same => (Prod.mk.inj same).2
  refine (wallet.distinct.of_map _).imp fun ne => ?_
  intro coin left right
  obtain ⟨i, -, rfl⟩ := mem_map.mp left
  obtain ⟨j, -, same⟩ := mem_map.mp right
  exact ne (Prod.mk.inj same).1.symm

theorem value_nonneg (mem : coin ∈ wallet.allCoins) : 0 ≤ coin.value.toInt := by
  obtain ⟨inside, bound⟩ := mem_allCoins.mp mem
  have element : coin.1.vout.getD coin.2 {} ∈ coin.1.vout := by
    rw [getD_eq_getElem?_getD, getElem?_eq_getElem bound]
    exact getElem_mem bound
  exact (moneyRange_iff.mp (wallet.values coin.1 inside _ element)).1

variable {α β : Type} {chance : Chance} {nTargetValue : CAmount} {selection : Selection}
  {xs : List α} {f : α → Option β} {coinControl : Option CCoinControl}

theorem map_filterMap_sublist {γ} {g : β → γ} {h} (agree : ∀ a b, f a = some b → g b = h a)
    (xs : List α)
    : ((xs.filterMap f).map g).Sublist (xs.map h) := by
  induction xs with
  | nil => exact .slnil
  | cons x xs ih =>
    cases found : f x with
    | none =>
      rw [filterMap_cons_none found]
      exact ih.cons (h x)
    | some b =>
      rw [filterMap_cons_some found, map_cons, agree x b found]
      exact ih.cons_cons (h x)

theorem availableCoins_sublist {fOnlyConfirmed fIncludeZeroValue fIncludeCoinBase}
    : ((wallet.availableCoins fOnlyConfirmed coinControl fIncludeZeroValue fIncludeCoinBase).map
        COutput.coin).Sublist wallet.allCoins := by
  rw [availableCoins, map_flatMap]
  refine Sublist.flatMap_right _ fun tx _ => ?_
  split
  next => exact nil_sublist _
  next =>
    refine map_filterMap_sublist (fun i output found => ?_) _
    dsimp only at found
    split at found
    · cases found
      rfl
    · cases found

theorem forall₂_of_mapM {ys} (run : xs.mapM f = some ys)
    : List.Forall₂ (fun x y => f x = some y) xs ys := by
  induction xs generalizing ys with
  | nil =>
    cases run
    exact .nil
  | cons x xs ih =>
    rw [mapM_cons] at run
    obtain ⟨y, first, rest⟩ := Option.bind_eq_some_iff.mp run
    obtain ⟨zs, others, same⟩ := Option.bind_eq_some_iff.mp rest
    cases same
    exact .cons first (ih others)

/-- Preset inputs are different coins of the wallet. -/
theorem presetCoins_ok {preset} (found : wallet.presetCoins coinControl = some preset)
    : preset.Nodup ∧ preset ⊆ wallet.allCoins := by
  have distinct : ((coinControl.map CCoinControl.setSelected).getD []).Nodup := by
    cases coinControl with
    | none => exact nodup_nil
    | some control => exact control.distinct
  have all := forall₂_of_mapM found
  generalize (coinControl.map CCoinControl.setSelected).getD [] = selected at distinct all
  have same : preset.map Coin.outpoint = selected ∧ preset ⊆ wallet.allCoins := by
    clear found distinct
    induction all with
    | nil => exact ⟨rfl, nil_subset _⟩
    | @cons outpoint coin _ _ isCoin _ ih =>
      split at isCoin
      next pcoin known =>
        split at isCoin
        next => cases isCoin
        next inside =>
          cases isCoin
          have hash : pcoin.hash = outpoint.hash := by simpa using find?_some known
          have mem : (pcoin, outpoint.n.toNat) ∈ wallet.allCoins :=
            mem_allCoins.mpr ⟨mem_of_find?_eq_some known, Nat.lt_of_not_le inside⟩
          refine ⟨?_, cons_subset.mpr ⟨mem, ih.2⟩⟩
          rw [map_cons, ih.1, Coin.outpoint, hash, UInt32.ofNat_toNat]
      next => cases isCoin
  refine ⟨?_, same.2⟩
  rw [← same.1] at distinct
  exact distinct.of_map _

/-! All of it. -/

/-- The coins that `SelectCoins` has to choose from. -/
def availableFor (wallet : CWallet) (fProtectCoinbase : Bool) (coinControl : Option CCoinControl)
    : List COutput :=
  wallet.availableCoins true coinControl false (!fProtectCoinbase)

/-- The preset inputs and the coins to choose from, each once. -/
def coinsInPlay (wallet : CWallet) (fProtectCoinbase : Bool) (coinControl : Option CCoinControl)
    : List Coin :=
  let preset := (wallet.presetCoins coinControl).getD []
  preset ++ ((wallet.availableFor fProtectCoinbase coinControl).map COutput.coin).filter
    fun coin => coin ∉ preset

variable {fProtectCoinbase : Bool} {coinControl : Option CCoinControl}

/-- The coins in play are bounded if their sum is. -/
theorem bounded_coinsInPlay
    (bound : sumOf (wallet.coinsInPlay fProtectCoinbase coinControl) < 2 ^ 63)
    : Bounded (wallet.coinsInPlay fProtectCoinbase coinControl)
      ∧ wallet.coinsInPlay fProtectCoinbase coinControl ⊆ wallet.allCoins := by
  have preset : ((wallet.presetCoins coinControl).getD []).Nodup
      ∧ (wallet.presetCoins coinControl).getD [] ⊆ wallet.allCoins := by
    cases found : wallet.presetCoins coinControl with
    | none => exact ⟨nodup_nil, nil_subset _⟩
    | some preset => exact presetCoins_ok found
  have available : ((wallet.availableFor fProtectCoinbase coinControl).map COutput.coin).Sublist
      wallet.allCoins := availableCoins_sublist
  have inside : wallet.coinsInPlay fProtectCoinbase coinControl ⊆ wallet.allCoins := by
    refine append_subset.mpr ⟨preset.2, fun coin mem => ?_⟩
    exact available.subset (mem_filter.mp mem).1
  refine ⟨⟨?_, fun coin mem => value_nonneg (inside mem), bound⟩, inside⟩
  refine nodup_append.mpr ⟨preset.1, ?_, ?_⟩
  · exact ((wallet.nodup_allCoins.sublist available)).filter _
  · rintro coin isPreset _ isOther rfl
    have notPreset := (mem_filter.mp isOther).2
    exact of_decide_eq_true notPreset isPreset

/-- The coins with ever fewer confirmations. -/
theorem selectOthers_ok {vCoins} (bounded : Bounded (vCoins.map COutput.coin))
    (room : nTargetValue.toInt + cent.toInt < 2 ^ 63) (pos : 0 ≤ nTargetValue.toInt)
    (selected : wallet.selectOthers chance nTargetValue vCoins = some selection)
    : Reaches (vCoins.map COutput.coin) nTargetValue selection := by
  rw [selectOthers, Option.or_eq_some_iff, Option.or_eq_some_iff] at selected
  rcases selected with first | ⟨-, second | ⟨-, third⟩⟩
  · exact selectCoinsMinConf_ok bounded room pos first
  · exact selectCoinsMinConf_ok bounded room pos second
  · split at third
    · exact selectCoinsMinConf_ok bounded room pos third
    · cases third

section

variable (room : nTargetValue.toInt + cent.toInt < 2 ^ 63) (pos : 0 ≤ nTargetValue.toInt)
include room pos

theorem selectWithPreset_ok (bounded : Bounded (wallet.coinsInPlay fProtectCoinbase coinControl))
    (selected : wallet.selectWithPreset chance nTargetValue coinControl
      (wallet.availableFor fProtectCoinbase coinControl) = some selection)
    : Reaches (wallet.coinsInPlay fProtectCoinbase coinControl) nTargetValue selection := by
  obtain ⟨preset, found, rest⟩ := Option.bind_eq_some_iff.mp selected
  obtain ⟨others, chosen, result⟩ := Option.bind_eq_some_iff.mp rest
  cases result
  have inPlay : wallet.coinsInPlay fProtectCoinbase coinControl
      = preset ++ (((wallet.availableFor fProtectCoinbase coinControl).filter
        fun out => out.coin ∉ preset).map COutput.coin) := by
    rw [coinsInPlay, found, filter_map]
    rfl
  rw [inPlay] at bounded ⊢
  have presetBounded := bounded.sublist (sublist_append_left _ _)
  have value := presetBounded.toInt_foldl
  have low := sumOf_nonneg presetBounded.nonneg
  generalize preset.foldl (fun value coin => value + coin.value) 0 = nPreset at *
  split at chosen
  next enough =>
    cases chosen
    refine Pays.withPreset bounded ⟨nodup_nil, nil_subset _, rfl⟩ value ?_
    exact (Int64.le_iff_toInt_le.mp enough).trans (Int.zero_add _).ge
  next short =>
    -- The coins that are added to the preset ones make up the rest.
    have small : cent.toInt = 1000000 := rfl
    rw [Int64.not_le, Int64.lt_iff_toInt_lt] at short
    have difference : (nTargetValue - nPreset).toInt = nTargetValue.toInt - nPreset.toInt :=
      toInt_sub ⟨by omega, by omega⟩
    have added := selectOthers_ok (bounded.sublist (sublist_append_right _ _))
      (by omega) (by omega) chosen
    have enough := Int64.le_iff_toInt_le.mp added.enough
    exact added.withPreset bounded value (by omega)

/-- `SelectCoins` selects coins of the wallet that reach the target. -/
theorem selectCoins_ok (bound : sumOf (wallet.coinsInPlay fProtectCoinbase coinControl) < 2 ^ 63)
    (selected : (wallet.selectCoins chance fProtectCoinbase nTargetValue coinControl).selection
      = some selection)
    : Reaches wallet.allCoins nTargetValue selection := by
  obtain ⟨bounded, inside⟩ := bounded_coinsInPlay bound
  have available : (if fProtectCoinbase then wallet.availableCoins true coinControl false false
      else wallet.availableCoins true coinControl false true)
      = wallet.availableFor fProtectCoinbase coinControl := by
    cases fProtectCoinbase <;> rfl
  rw [selectCoins, available] at selected
  dsimp only at selected
  split at selected
  next =>
    -- All coins that coin control selects are taken.
    have coins : ((wallet.availableFor fProtectCoinbase coinControl).map COutput.coin).Sublist
        wallet.allCoins := availableCoins_sublist
    have inPlay : (wallet.availableFor fProtectCoinbase coinControl).map COutput.coin
        ⊆ wallet.coinsInPlay fProtectCoinbase coinControl := by
      intro coin mem
      rw [coinsInPlay, mem_append, mem_filter, decide_eq_true_eq]
      by_cases isPreset : coin ∈ (wallet.presetCoins coinControl).getD []
      · exact .inl isPreset
      · exact .inr ⟨mem, isPreset⟩
    obtain ⟨pays, -⟩ := foldl_take_pays
      (bounded.subset (wallet.nodup_allCoins.sublist coins) inPlay)
      ((filter_sublist (p := COutput.fSpendable)).map COutput.coin)
    rw [map_map, foldl_map, foldl_filter] at pays
    split at selected
    next enough =>
      cases selected
      exact Reaches.mono ⟨pays, enough⟩ coins.subset
    next => cases selected
  next => exact (selectWithPreset_ok room pos bounded selected).mono inside

end

end CWallet

end Resistance.Wallet

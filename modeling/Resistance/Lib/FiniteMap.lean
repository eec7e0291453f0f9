import Mathlib.Algebra.Ring.Int.Defs
import Mathlib.Data.Finmap
import Resistance.Lib.Checks

/-! Finite maps as association lists: replacing or removing the value of a key, merging a map
into another one entry by entry, and totals over all values.
-/

namespace Resistance.Lib

abbrev FiniteMap (K V : Type) := AList (fun _ : K => V)

namespace FiniteMap

open List Checks AList

variable {K V E ε : Type} [DecidableEq K]

/-- Give a key the value, or remove it. -/
def put (m : FiniteMap K V) (k : K) : Option V → FiniteMap K V
  | some v => m.insert k v
  | none => m.erase k

theorem lookup_put (m : FiniteMap K V) (k : K) (value : Option V) (k' : K)
    : (put m k value).lookup k' = if k' = k then value else m.lookup k' := by
  by_cases same : k' = k
  · subst same
    cases value <;> simp [put]
  · cases value <;> simp [put, same]

@[simp] theorem lookup_put_self (m : FiniteMap K V) (k : K) (value : Option V)
    : (put m k value).lookup k = value := by
  simp [lookup_put]

variable {k : K} {combine : E → Option V → Except ε (Option V)} {m : FiniteMap K V}

theorem lookup_put_ne (m : FiniteMap K V) {k'} (value : Option V) (ne : k' ≠ k)
    : (put m k value).lookup k' = m.lookup k' := by
  simp [lookup_put, ne]

/-- What is found after an insertion is the new entry or an old one. -/
theorem lookup_insert_cases {k' v v'} (found : (m.insert k v).lookup k' = some v')
    : (k' = k ∧ v' = v) ∨ (k' ≠ k ∧ m.lookup k' = some v') := by
  by_cases same : k' = k
  · subst same
    rw [lookup_insert] at found
    cases found
    exact .inl ⟨rfl, rfl⟩
  · rw [lookup_insert_ne same] at found
    exact .inr ⟨same, found⟩

/-- Change every value, or drop it. -/
def filterMap {W : Type} (f : V → Option W) (m : FiniteMap K V) : FiniteMap K W where
  entries := m.entries.filterMap fun entry => (f entry.2).map fun value => ⟨entry.1, value⟩
  nodupKeys := by
    obtain ⟨entries, nodup⟩ := m
    rw [nodupKeys_iff_pairwise] at nodup ⊢
    refine List.Pairwise.filterMap _ ?_ nodup
    rintro a b ne c ca d db
    obtain ⟨_, _, rfl⟩ := Option.map_eq_some_iff.mp ca
    obtain ⟨_, _, rfl⟩ := Option.map_eq_some_iff.mp db
    exact ne

theorem lookup_filterMap {W} (f : V → Option W) (m : FiniteMap K V) (k : K)
    : (filterMap f m).lookup k = (m.lookup k).bind f := by
  obtain ⟨entries, nodup⟩ := m
  simp only [filterMap, AList.lookup]
  induction entries with
  | nil => rfl
  | cons head tail ih =>
    obtain ⟨absent, nodupTail⟩ := nodupKeys_cons.mp nodup
    have rest := ih nodupTail
    rw [filterMap_cons]
    by_cases same : k = head.1
    · subst same
      rw [dlookup_cons_eq, Option.bind_some]
      cases value : f head.2 with
      | none =>
        rw [dlookup_eq_none.mpr absent] at rest
        exact rest
      | some w => exact dlookup_cons_eq ..
    · rw [dlookup_cons_ne _ _ same]
      cases value : f head.2 with
      | none => exact rest
      | some w =>
        exact (dlookup_cons_ne _ ⟨head.1, w⟩ same).trans rest

/-- Merge keyed entries into a map, one after the other. -/
def mergeEntries (combine : E → Option V → Except ε (Option V)) (entries : List (Σ _ : K, E))
    (m : FiniteMap K V) : Except ε (FiniteMap K V) :=
  entries.foldlM (fun m entry => do
    return put m entry.1 (← combine entry.2 (m.lookup entry.1))) m

/-- Merge a map into another one. -/
def merge (combine : E → Option V → Except ε (Option V)) (child : FiniteMap K E)
    (m : FiniteMap K V) : Except ε (FiniteMap K V) :=
  mergeEntries combine child.entries m

/-- What the merge makes of a key, given the entry that is merged at it. -/
def Merged (combine : E → Option V → Except ε (Option V)) (old new : Option V)
    : Option E → Prop
  | none => new = old
  | some entry => combine entry old = .ok new

theorem mergeEntries_ok {entries} (nodup : entries.NodupKeys)
    (combines : ∀ k entry, entries.dlookup k = some entry →
      ∃ value, combine entry (m.lookup k) = .ok value)
    : ∃ merged, mergeEntries combine entries m = .ok merged
      ∧ ∀ k, Merged combine (m.lookup k) (merged.lookup k) (entries.dlookup k) := by
  induction entries generalizing m with
  | nil => exact ⟨m, rfl, fun k => rfl⟩
  | cons head tail ih =>
    obtain ⟨key, entry⟩ := head
    obtain ⟨absent, nodupTail⟩ := nodupKeys_cons.mp nodup
    obtain ⟨value, combined⟩ := combines key entry (dlookup_cons_eq ..)
    obtain ⟨merged, run, values⟩ := @ih (put m key value) nodupTail (by
      intro k later found
      have listed : k ∈ tail.keys := dlookup_isSome.mp (by rw [found]; rfl)
      have other : k ≠ key := by
        rintro rfl
        exact absent listed
      rw [lookup_put_ne m value other]
      exact combines k later (by rw [dlookup_cons_ne _ _ other, found]))
    refine ⟨merged, foldlM_cons_ok.mpr ⟨put m key value, ?_, run⟩, fun k => ?_⟩
    · exact bind_ok.mpr ⟨value, combined, rfl⟩
    have tailValue := values k
    by_cases same : k = key
    · subst same
      rw [dlookup_eq_none.mpr absent, lookup_put_self] at tailValue
      rw [dlookup_cons_eq, tailValue]
      exact combined
    · rw [lookup_put_ne m value same] at tailValue
      rw [dlookup_cons_ne _ _ same]
      exact tailValue

/-- If every entry can be combined with the value that the map has for its key, the merge
succeeds and each key has its combined value, whatever the order of the entries.
-/
theorem merge_ok {child} (combines : ∀ k entry, child.lookup k = some entry →
      ∃ value, combine entry (m.lookup k) = .ok value)
    : ∃ merged, merge combine child m = .ok merged
      ∧ ∀ k, Merged combine (m.lookup k) (merged.lookup k) (child.lookup k) :=
  mergeEntries_ok child.nodupKeys combines

/-- A key without an entry keeps its value. -/
theorem merge_absent {child merged} (absent : child.lookup k = none)
    (run : merge combine child m = .ok merged)
    : merged.lookup k = m.lookup k := by
  rw [AList.lookup, dlookup_eq_none] at absent
  rw [merge] at run
  generalize child.entries = entries at absent run
  induction entries generalizing m with
  | nil =>
    cases run
    rfl
  | cons head tail ih =>
    obtain ⟨middle, step, rest⟩ := foldlM_cons_ok.mp run
    obtain ⟨value, _, step⟩ := bind_ok.mp step
    cases step
    rw [keys_cons, mem_cons, not_or] at absent
    rw [ih absent.2 rest, lookup_put_ne m value absent.1]

/-- Merge a map into another one, where no entry can fail. -/
def overlay (combine : K → E → Option V → Option V) (child : FiniteMap K E)
    (m : FiniteMap K V) : FiniteMap K V :=
  child.entries.foldl (fun m entry => put m entry.1 (combine entry.1 entry.2 (m.lookup entry.1))) m

theorem lookup_overlay (combine : K → E → Option V → Option V) (child : FiniteMap K E)
    (m : FiniteMap K V) (k : K)
    : (overlay combine child m).lookup k
      = (child.lookup k).elim (m.lookup k) (combine k · (m.lookup k)) := by
  obtain ⟨entries, nodup⟩ := child
  simp only [AList.lookup]
  induction entries generalizing m with
  | nil => rfl
  | cons head tail ih =>
    obtain ⟨absent, nodupTail⟩ := nodupKeys_cons.mp nodup
    have rest := ih (put m head.1 (combine head.1 head.2 (m.lookup head.1))) nodupTail
    by_cases same : k = head.1
    · subst same
      rw [dlookup_eq_none.mpr absent] at rest
      rw [dlookup_cons_eq]
      exact rest.trans (lookup_put_self ..)
    · rw [dlookup_cons_ne _ _ same]
      have elsewhere := lookup_put_ne m (combine head.1 head.2 (m.lookup head.1)) same
      simp only [AList.lookup] at rest elsewhere
      rw [elsewhere] at rest
      exact rest

/-- Change every value in its place. -/
def forEach (f : V → Except ε V) (m : FiniteMap K V) : Except ε (FiniteMap K V) :=
  merge (fun value _ => do return some (← f value)) m m

/-- A change of a map that changes each value by itself: if every value can be changed to one with a
property, the changed map has such values only.
-/
def Wise (g : FiniteMap K V → Except ε (FiniteMap K V)) (f : K → V → Except ε V) : Prop :=
  ∀ (m : FiniteMap K V) (Q : K → V → Prop),
    (∀ k value, m.lookup k = some value → ∃ value', f k value = .ok value' ∧ Q k value')
    → ∃ changed, g m = .ok changed ∧ ∀ k value, changed.lookup k = some value → Q k value

theorem forEach_wise (f : V → Except ε V) : Wise (K := K) (forEach f) (fun _ => f) := by
  intro m Q changes
  obtain ⟨changed, run, values⟩ : ∃ changed, forEach f m = .ok changed
      ∧ ∀ k, Merged (fun value _ => do return some (← f value)) (m.lookup k) (changed.lookup k)
        (m.lookup k) := by
    refine merge_ok fun k value found => ?_
    obtain ⟨value', change, -⟩ := changes k value found
    exact ⟨some value', bind_ok.mpr ⟨value', change, rfl⟩⟩
  refine ⟨changed, run, fun k new isNew => ?_⟩
  have merged := values k
  cases found : m.lookup k with
  | none =>
    rw [found, isNew] at merged
    cases merged
  | some old =>
    rw [found, isNew] at merged
    obtain ⟨value', change, same⟩ := bind_ok.mp merged
    cases same
    obtain ⟨_, changeAgain, holds⟩ := changes k old found
    cases change.symm.trans changeAgain
    exact holds

/-- Change the value of a key, where it has one. -/
def changeAt (f : V → Except ε V) (k : K) (m : FiniteMap K V) : Except ε (FiniteMap K V) :=
  match m.lookup k with
  | none => return m
  | some value => do return m.insert k (← f value)

theorem changeAt_wise (f : V → Except ε V) (k : K)
    : Wise (changeAt f k) (fun k' => if k' = k then f else .ok) := by
  intro m Q change
  dsimp only at change
  have others : ∀ k' value, k' ≠ k → m.lookup k' = some value → Q k' value := by
    intro k' value differs there
    obtain ⟨_, same, holds⟩ := change k' value there
    rw [if_neg differs] at same
    cases same
    exact holds
  cases found : m.lookup k with
  | none =>
    refine ⟨m, by rw [changeAt, found]; rfl, fun k' value there => others k' value ?_ there⟩
    rintro rfl
    rw [found] at there
    cases there
  | some old =>
    obtain ⟨value', run, holds⟩ := change k old found
    rw [if_pos rfl] at run
    refine ⟨m.insert k value', ?_, fun k' value there => ?_⟩
    · rw [changeAt, found]
      exact bind_ok.mpr ⟨value', run, rfl⟩
    · rcases lookup_insert_cases there with ⟨rfl, rfl⟩ | ⟨differs, before⟩
      · exact holds
      · exact others k' value differs before

/-- The sum of a weight over all values. -/
def total (weight : V → Int) (m : FiniteMap K V) : Int :=
  (m.entries.map fun entry => weight entry.2).sum

/-- The weight of an optional value. -/
def weightOf (weight : V → Int) (value : Option V) : Int :=
  value.elim 0 weight

theorem total_erase (weight : V → Int) (m : FiniteMap K V) (k : K)
    : total weight (m.erase k) = total weight m - weightOf weight (m.lookup k) := by
  obtain ⟨list, nodup⟩ := m
  simp only [total, AList.erase, AList.lookup]
  induction list with
  | nil => rfl
  | cons head tail ih =>
    have rest := ih (nodupKeys_cons.mp nodup).2
    by_cases same : k = head.1
    · have erased : kerase k (head :: tail) = tail := kerase_cons_eq same
      subst same
      rw [erased, dlookup_cons_eq, map_cons, sum_cons]
      simp only [weightOf, Option.elim]
      omega
    · rw [kerase_cons_ne same, dlookup_cons_ne _ _ same]
      simp only [map_cons, sum_cons]
      omega

theorem total_put (weight : V → Int) (m : FiniteMap K V) (k : K) (value : Option V)
    : total weight (put m k value)
      = total weight m - weightOf weight (m.lookup k) + weightOf weight value := by
  cases value with
  | none => simp [put, total_erase, weightOf]
  | some v =>
    have erased := total_erase weight m k
    have inserted : total weight (m.insert k v) = weight v + total weight (m.erase k) := by
      simp [total, AList.erase]
    simp only [put, weightOf, Option.elim] at erased ⊢
    omega

end FiniteMap

end Resistance.Lib

import Mathlib.Data.List.Sort
import Mathlib.Data.List.GetD

/-! Entries of a sorted list, by counting the smaller elements of the list before sorting. -/

namespace Resistance.Lib.OrderStatistic

open List

variable {α : Type} [LinearOrder α]

/-- In a sorted list an element is at most the entry at `i` when at most `i` entries are below
it.
-/
theorem le_getD_iff_of_sorted {sorted : List α} (ordered : sorted.Pairwise (· ≤ ·)) {i}
    (inside : i < sorted.length) (x default : α)
    : x ≤ sorted.getD i default ↔ sorted.countP (· < x) ≤ i := by
  induction sorted generalizing i with
  | nil => cases inside
  | cons first rest ih =>
    obtain ⟨least, tail⟩ := pairwise_cons.mp ordered
    have none : x ≤ first → (first :: rest).countP (· < x) = 0 := by
      intro below
      refine countP_eq_zero.mpr fun y mem => ?_
      rw [decide_eq_true_eq, not_lt]
      rcases mem_cons.mp mem with rfl | later
      · exact below
      · exact below.trans (least y later)
    cases i with
    | zero =>
      rw [Nat.le_zero]
      refine ⟨none, ?_⟩
      intro empty
      have not := countP_eq_zero.mp empty first mem_cons_self
      rwa [decide_eq_true_eq, not_lt] at not
    | succ i =>
      rw [getD_cons_succ, ih tail (Nat.lt_of_succ_lt_succ inside)]
      rcases le_or_gt x first with below | above
      · have rest0 := none below
        rw [countP_cons] at rest0
        exact iff_of_true (by omega) (by rw [none below]; omega)
      · rw [countP_cons_of_pos (by simpa using above), Nat.succ_le_succ_iff]

theorem le_getD_insertionSort_iff {l : List α} {i} (inside : i < l.length) (x default : α)
    : x ≤ (l.insertionSort (· ≤ ·)).getD i default ↔ l.countP (· < x) ≤ i := by
  rw [le_getD_iff_of_sorted (pairwise_insertionSort (· ≤ ·) l)
    (by rwa [length_insertionSort]), (perm_insertionSort (· ≤ ·) l).countP_eq]

/-- The entry in the middle. -/
def median (l : List α) (default : α) : α :=
  (l.insertionSort (· ≤ ·)).getD (l.length / 2) default

/-- A window that takes in an element no smaller than its median, and drops others only once
it is full, keeps its median from falling.
-/
theorem median_le_median {old new : List α} {x default} (nonempty : old ≠ [])
    (late : median old default ≤ x) (kept : new.Sublist old) (grown : old.length ≤ new.length + 1)
    : median old default ≤ median (x :: new) default := by
  have pos : 0 < old.length := length_pos_iff.mpr nonempty
  have few : old.countP (· < median old default) ≤ old.length / 2 :=
    (le_getD_insertionSort_iff (Nat.div_lt_self pos (by decide)) _ _).mp (le_refl _)
  have middle : (x :: new).length / 2 < (x :: new).length :=
    Nat.div_lt_self (Nat.succ_pos _) (by decide)
  refine (le_getD_insertionSort_iff middle _ _).mpr ?_
  rw [countP_cons_of_neg (by simpa using late)]
  calc new.countP (· < median old default) ≤ old.countP (· < median old default) := kept.countP_le
    _ ≤ old.length / 2 := few
    _ ≤ (x :: new).length / 2 := Nat.div_le_div_right grown

theorem median_mem {l} (default : α) (nonempty : l ≠ []) : median l default ∈ l := by
  have inside : l.length / 2 < (l.insertionSort (· ≤ ·)).length := by
    rw [length_insertionSort]
    exact Nat.div_lt_self (length_pos_iff.mpr nonempty) (by decide)
  rw [median, getD_eq_getElem _ _ inside, ← mem_insertionSort (· ≤ ·)]
  exact getElem_mem inside

/-- The median lies where most of the elements lie. -/
theorem median_between {l : List α} {a b default}
    (most : l.length < 2 * l.countP fun x => a ≤ x ∧ x ≤ b)
    : a ≤ median l default ∧ median l default ≤ b := by
  have middle : l.length / 2 < l.length := by
    have := countP_le_length (p := fun x => a ≤ x ∧ x ≤ b) (l := l)
    omega
  constructor
  · refine (le_getD_insertionSort_iff middle ..).mpr ?_
    have outside : l.countP (· < a) ≤ l.countP fun x => ¬ (a ≤ x ∧ x ≤ b) :=
      countP_mono_left (by simp +contextual)
    have all := length_eq_countP_add_countP (fun x => decide (a ≤ x ∧ x ≤ b)) (l := l)
    simp only [decide_eq_true_eq] at all
    omega
  · by_contra above
    have few := (le_getD_insertionSort_iff middle _ _).mp (le_refl (median l default))
    have all : (l.countP fun x => a ≤ x ∧ x ≤ b) ≤ l.countP (· < median l default) :=
      countP_mono_left (by grind)
    omega

end Resistance.Lib.OrderStatistic

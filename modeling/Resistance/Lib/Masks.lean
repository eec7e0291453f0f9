import Mathlib.Algebra.BigOperators.Group.List.Basic
import Mathlib.Data.List.Range

/-! Sublists given by a mask, and loops over the indices of a list that change one place of
the mask at a time.
-/

namespace Resistance.Lib.Masks

variable {α β : Type}

/-- The elements whose place in the mask is set. -/
def picked : List α → List Bool → List α
  | x :: xs, true :: mask => x :: picked xs mask
  | _ :: xs, false :: mask => picked xs mask
  | _, _ => []

theorem picked_sublist (xs : List α) (mask : List Bool) : (picked xs mask).Sublist xs := by
  fun_induction picked xs mask with
  | case1 x xs mask ih => exact ih.cons_cons x
  | case2 x xs mask ih => exact ih.cons x
  | case3 xs mask => exact List.nil_sublist xs

theorem picked_map (f : α → β) (xs : List α) (mask : List Bool)
    : picked (xs.map f) mask = (picked xs mask).map f := by
  induction xs generalizing mask with
  | nil => rfl
  | cons x xs ih =>
    rcases mask with _ | ⟨_ | _, mask⟩
    · rfl
    · exact ih mask
    · exact congrArg (f x :: ·) (ih mask)

theorem picked_all (xs : List α) : picked xs (List.replicate xs.length true) = xs := by
  induction xs with
  | nil => rfl
  | cons x xs ih => exact congrArg (x :: ·) ih

theorem picked_none (xs : List α) (n : Nat) : picked xs (List.replicate n false) = [] := by
  induction xs generalizing n with
  | nil => cases n <;> rfl
  | cons x xs ih =>
    cases n with
    | zero => rfl
    | succ n => exact ih n

/-- Setting a place adds its element. -/
theorem picked_set {xs : List α} {mask i x} (element : xs[i]? = some x)
    (place : mask[i]? = some false)
    : (picked xs (mask.set i true)).Perm (x :: picked xs mask) := by
  induction xs generalizing mask i with
  | nil => cases element
  | cons y xs ih =>
    rcases mask with _ | ⟨b, mask⟩
    · cases place
    · cases i with
      | zero =>
        cases element
        cases place
        exact .refl _
      | succ i =>
        have rest := @ih mask i element place
        cases b with
        | false => exact rest
        | true => exact (rest.cons y).trans (.swap x y _)

/-- An invariant that depends on the index, over a loop from 0. -/
theorem foldl_range {P : Nat → β → Prop} {step n b} (start : P 0 b)
    (next : ∀ i b, i < n → P i b → P (i + 1) (step b i))
    : P n ((List.range n).foldl step b) := by
  induction n with
  | zero => exact start
  | succ n ih =>
    rw [List.range_succ, List.foldl_append]
    exact next n _ (Nat.lt_succ_self n)
      (ih fun i b bound => next i b (Nat.lt_succ_of_lt bound))

end Resistance.Lib.Masks

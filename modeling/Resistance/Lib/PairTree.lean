import Mathlib.Data.List.Nodup
import Mathlib.Data.Nat.Log
import Mathlib.Tactic.Ring

/-! Trees over a list, built level by level: neighbours are combined in pairs, and the last item
of a level of odd length is combined with itself. Two lists can have the same root only if one
of them ends, at some level, in two equal items that are paired, provided that the function does
not collide on the pairs that are combined.
-/

namespace Resistance.Lib.PairTree

open List Function Nat

variable {α : Type} (combine : α → α → α)

/-- Neighbours of a level, an odd last item with itself. -/
def pairs : List α → List (α × α)
  | [] => []
  | [a] => [(a, a)]
  | a :: b :: rest => (a, b) :: pairs rest

/-- The next level. -/
def up (items : List α) : List α := (pairs items).map (Function.uncurry combine)

/-- The level at a height above the items. -/
def level (height : Nat) (items : List α) : List α := (up combine)^[height] items

/-- The length of the level at a height above `n` items. -/
def width (n height : Nat) : Nat := (n + 2 ^ height - 1) / 2 ^ height

/-- The pairs that are combined below a height. -/
def combined (height : Nat) (items : List α) : List (α × α) :=
  (List.range height).flatMap fun k => pairs (level combine k items)

/-- The height of the tree over `n` items. -/
def treeHeight (n : Nat) : Nat := Nat.clog 2 n

/-- Whether two equal items at the end of a level are paired. -/
def repeats [DecidableEq α] : List α → Bool
  | [] | [_] => false
  | [a, b] => a = b
  | _ :: _ :: c :: rest => repeats (c :: rest)

theorem length_pairs (items : List α) : (pairs items).length = (items.length + 1) / 2 := by
  induction items using pairs.induct with
  | case1 => simp [pairs]
  | case2 a => simp [pairs]
  | case3 a b rest ih =>
    simp only [pairs, length_cons]
    omega

theorem width_zero (n : Nat) : width n 0 = n := by
  simp [width]

theorem width_le_iff {n height m} : width n height ≤ m ↔ n ≤ m * 2 ^ height := by
  have pos : 0 < 2 ^ height := Nat.two_pow_pos height
  rw [width, div_le_iff_le_mul_add_pred pos, mul_comm]
  omega

theorem lt_width_iff {n height m} : m < width n height ↔ m * 2 ^ height < n := by
  rw [← not_le, width_le_iff, not_le]

theorem width_succ (n height : Nat) : width n (height + 1) = (width n height + 1) / 2 := by
  refine eq_of_forall_ge_iff fun m => ?_
  have half : (width n height + 1) / 2 ≤ m ↔ width n height ≤ 2 * m := by omega
  have double : m * 2 ^ (height + 1) = 2 * m * 2 ^ height := by ring
  rw [half, width_le_iff, width_le_iff, double]

variable {combine}

@[simp] theorem level_zero (items : List α) : level combine 0 items = items := rfl

theorem level_succ (height : Nat) (items : List α)
    : level combine (height + 1) items = up combine (level combine height items) :=
  iterate_succ_apply' _ _ _

theorem level_up (height : Nat) (items : List α)
    : level combine height (up combine items) = level combine (height + 1) items :=
  (iterate_succ_apply _ _ _).symm

theorem length_up (items : List α) : (up combine items).length = (items.length + 1) / 2 := by
  rw [up, length_map, length_pairs]

theorem length_level (height : Nat) (items : List α)
    : (level combine height items).length = width items.length height := by
  induction height with
  | zero => rw [level_zero, width_zero]
  | succ height ih => rw [level_succ, length_up, ih, width_succ]

theorem treeHeight_le_iff {n height} : treeHeight n ≤ height ↔ width n height ≤ 1 := by
  rw [treeHeight, clog_le_iff_le_pow one_lt_two, width_le_iff, one_mul]

variable {items : List α} {height : Nat}

theorem width_pos (height : Nat) (nonempty : items ≠ []) : 0 < width items.length height := by
  rw [lt_width_iff, zero_mul]
  exact length_pos_iff.mpr nonempty

/-- A tree over at least one item has one root. -/
theorem exists_root (combine : α → α → α) (nonempty : items ≠ [])
    : ∃ root, level combine (treeHeight items.length) items = [root] := by
  refine length_eq_one_iff.mp ?_
  rw [length_level]
  have upper := treeHeight_le_iff.mp (le_refl (treeHeight items.length))
  exact le_antisymm upper (width_pos _ nonempty)

theorem getElem?_pairs (items : List α) (i : Nat)
    : (pairs items)[i]? = items[2 * i]?.map fun a => (a, items[2 * i + 1]?.getD a) := by
  induction items using pairs.induct generalizing i with
  | case1 => rfl
  | case2 a =>
    cases i with
    | zero => rfl
    | succ i => simp [pairs]
  | case3 a b rest ih =>
    cases i with
    | zero => rfl
    | succ i => simpa [pairs, mul_add] using ih i

/-- A node combines its two children, an odd last child with itself. -/
theorem getElem?_level_succ (height : Nat) (items : List α) (i : Nat)
    : (level combine (height + 1) items)[i]?
      = (level combine height items)[2 * i]?.map fun a =>
          combine a ((level combine height items)[2 * i + 1]?.getD a) := by
  rw [level_succ, up, getElem?_map, getElem?_pairs, Option.map_map]
  rfl

theorem mem_combined {k p} (below : k < height) (mem : p ∈ pairs (level combine k items))
    : p ∈ combined combine height items :=
  mem_flatMap.mpr ⟨k, mem_range.mpr below, mem⟩

/-- The pair that a node combines is one of the pairs below it. -/
theorem child_mem_combined {k i a} (below : k < height)
    (child : (level combine k items)[2 * i]? = some a)
    : (a, (level combine k items)[2 * i + 1]?.getD a) ∈ combined combine height items := by
  refine mem_combined below (mem_of_getElem? (i := i) ?_)
  rw [getElem?_pairs, child]
  rfl

theorem combined_subset {other} (le : height ≤ other)
    : ∀ p ∈ combined combine height items, p ∈ combined combine other items := by
  intro p mem
  obtain ⟨k, below, listed⟩ := mem_flatMap.mp mem
  exact mem_combined (lt_of_lt_of_le (mem_range.mp below) le) listed

theorem exists_head_level (combine : α → α → α) (nonempty : items ≠ []) (height : Nat)
    : ∃ a, (level combine height items)[0]? = some a := by
  refine ⟨_, getElem?_eq_getElem ?_⟩
  rw [length_level]
  exact width_pos _ nonempty

/-- The first node of a level is the first item, or combined from a pair. -/
theorem head_level_cases {a} (head : (level combine height items)[0]? = some a)
    : a ∈ items ∨ ∃ p ∈ combined combine height items, combine p.1 p.2 = a := by
  cases height with
  | zero => exact .inl (mem_of_getElem? head)
  | succ height =>
    rw [getElem?_level_succ, Option.map_eq_some_iff] at head
    obtain ⟨first, child, rfl⟩ := head
    exact .inr ⟨_, child_mem_combined (lt_succ_self height) child, rfl⟩

theorem map_fst_pairs_sublist (items : List α) : ((pairs items).map Prod.fst).Sublist items := by
  induction items using pairs.induct with
  | case1 => exact nil_sublist _
  | case2 a => exact List.Sublist.refl _
  | case3 a b rest ih => exact (ih.cons b).cons_cons a

/-- Distinct items make distinct nodes at every height. -/
theorem nodup_level {s} (free : Set.InjOn (uncurry combine) s)
    (inside : ∀ p ∈ combined combine height items, p ∈ s) (distinct : items.Nodup)
    : (level combine height items).Nodup := by
  induction height with
  | zero => exact distinct
  | succ height ih =>
    have lower := ih fun p mem => inside p (combined_subset (le_succ height) p mem)
    have paired : (pairs (level combine height items)).Nodup :=
      List.Nodup.of_map Prod.fst (lower.sublist (map_fst_pairs_sublist _))
    have listed {p : α × α} (mem : p ∈ pairs (level combine height items)) : p ∈ s :=
      inside p (mem_combined (lt_succ_self height) mem)
    rw [level_succ]
    exact List.Nodup.map_on
      (fun p left q right same => free (listed left) (listed right) same) paired

variable [DecidableEq α] {left right : List α}

omit [DecidableEq α] in
theorem eq_nil_of_pairs_eq_nil {items : List α} (none : pairs items = []) : items = [] := by
  cases items using pairs.induct <;> simp [pairs] at none ⊢

theorem repeats_cons_cons {rest} (a b : α) (found : repeats rest = true)
    : repeats (a :: b :: rest) = true := by
  cases rest with
  | nil => cases found
  | cons c rest => exact found

/-- Levels with the same pairs are equal, or the longer one repeats its last item. -/
theorem eq_or_repeats_of_pairs_eq (same : pairs left = pairs right)
    : left = right
      ∨ left.length < right.length ∧ repeats right = true
      ∨ right.length < left.length ∧ repeats left = true := by
  induction left using pairs.induct generalizing right with
  | case1 => exact .inl (eq_nil_of_pairs_eq_nil same.symm).symm
  | case2 a =>
    cases right using pairs.induct with
    | case1 => cases same
    | case2 b =>
      simp only [pairs, cons.injEq, Prod.mk.injEq] at same
      exact .inl (by rw [same.1.1])
    | case3 b c rest =>
      simp only [pairs, cons.injEq] at same
      obtain ⟨⟨rfl, rfl⟩, none⟩ := same
      obtain rfl := eq_nil_of_pairs_eq_nil none.symm
      exact .inr (.inl ⟨by simp, by simp [repeats]⟩)
  | case3 a b rest ih =>
    cases right using pairs.induct with
    | case1 => cases same
    | case2 c =>
      simp only [pairs, cons.injEq] at same
      obtain ⟨⟨rfl, rfl⟩, none⟩ := same
      obtain rfl := eq_nil_of_pairs_eq_nil none
      exact .inr (.inr ⟨by simp, by simp [repeats]⟩)
    | case3 c d other =>
      simp only [pairs, cons.injEq] at same
      obtain ⟨⟨rfl, rfl⟩, below⟩ := same
      rcases ih below with rfl | ⟨longer, found⟩ | ⟨longer, found⟩
      · exact .inl rfl
      · exact .inr (.inl ⟨by simpa using longer, repeats_cons_cons a b found⟩)
      · exact .inr (.inr ⟨by simpa using longer, repeats_cons_cons a b found⟩)

omit [DecidableEq α] in
/-- A function that does not collide on the items of two lists can be cancelled. -/
theorem eq_of_map_eq {β} {f : α → β} {s} (free : Set.InjOn f s) (inLeft : ∀ a ∈ left, a ∈ s)
    (inRight : ∀ a ∈ right, a ∈ s) (same : left.map f = right.map f)
    : left = right := by
  induction left generalizing right with
  | nil => exact (map_eq_nil_iff.mp same.symm).symm
  | cons a left ih =>
    cases right with
    | nil => cases same
    | cons b right =>
      simp only [map_cons, cons.injEq, forall_mem_cons] at same inLeft inRight
      rw [free inLeft.1 inRight.1 same.1, ih inLeft.2 inRight.2 same.2]

variable {s : Set (α × α)}

section

variable (free : Set.InjOn (Function.uncurry combine) s)
include free

/-- Lists with the same level at a height are equal, or the longer one repeats its last item
at some level below. The induction is on the height, from the leaves up.
-/
theorem eq_or_repeats_of_level_eq (inLeft : ∀ p ∈ combined combine height left, p ∈ s)
    (inRight : ∀ p ∈ combined combine height right, p ∈ s)
    (same : level combine height left = level combine height right)
    : left = right
      ∨ (left.length < right.length ∧ ∃ k < height, repeats (level combine k right) = true)
      ∨ (right.length < left.length ∧ ∃ k < height, repeats (level combine k left) = true) := by
  induction height generalizing left right with
  | zero => exact .inl same
  | succ height ih =>
    simp only [combined, range_succ_eq_map, flatMap_cons, flatMap_map, level_zero,
      forall_mem_append] at inLeft inRight
    rcases ih inLeft.2 inRight.2 same with equal | ⟨longer, k, below, found⟩
      | ⟨longer, k, below, found⟩
    · have paired := eq_of_map_eq free inLeft.1 inRight.1 equal
      rcases eq_or_repeats_of_pairs_eq paired with equal | ⟨longer, found⟩ | ⟨longer, found⟩
      · exact .inl equal
      · exact .inr (.inl ⟨longer, 0, succ_pos height, found⟩)
      · exact .inr (.inr ⟨longer, 0, succ_pos height, found⟩)
    · rw [length_up, length_up] at longer
      exact .inr (.inl ⟨by omega, k + 1, succ_lt_succ below, found⟩)
    · rw [length_up, length_up] at longer
      exact .inr (.inr ⟨by omega, k + 1, succ_lt_succ below, found⟩)

omit [DecidableEq α] in
/-- From a common first node, the first items of two trees are found by descending as far as
the lower one reaches.
-/
theorem head_eq_of_level_head_eq (leftNonempty : left ≠ []) (rightNonempty : right ≠ []) {more}
    (inLeft : ∀ p ∈ combined combine height left, p ∈ s)
    (inRight : ∀ p ∈ combined combine (height + more) right, p ∈ s)
    (same : (level combine height left)[0]? = (level combine (height + more) right)[0]?)
    : left[0]? = (level combine more right)[0]? := by
  induction height with
  | zero => rwa [zero_add] at same
  | succ height ih =>
    rw [succ_add] at same inRight
    obtain ⟨a, leftHead⟩ := exists_head_level combine leftNonempty height
    obtain ⟨b, rightHead⟩ := exists_head_level combine rightNonempty (height + more)
    have leftPair := child_mem_combined (i := 0) (lt_succ_self height) leftHead
    have rightPair := child_mem_combined (i := 0) (lt_succ_self (height + more)) rightHead
    rw [getElem?_level_succ, getElem?_level_succ, leftHead, rightHead, Option.map_some,
      Option.map_some, Option.some.injEq] at same
    have equal := free (inLeft _ leftPair) (inRight _ rightPair) same
    refine ih (fun p mem => inLeft p (combined_subset (le_succ _) p mem))
      (fun p mem => inRight p (combined_subset (le_succ _) p mem)) ?_
    rw [leftHead, rightHead, (Prod.mk.inj equal).1]

omit [DecidableEq α] in
/-- If no combined pair gives an item, a root is only reached at one height. -/
theorem height_le_of_root_eq (leftNonempty : left ≠ []) (rightNonempty : right ≠ []) {other}
    (inLeft : ∀ p ∈ combined combine height left, p ∈ s)
    (inRight : ∀ p ∈ combined combine other right, p ∈ s)
    (apart : ∀ p ∈ combined combine other right, uncurry combine p ∉ left)
    (same : (level combine height left)[0]? = (level combine other right)[0]?)
    : other ≤ height := by
  by_contra higher
  obtain ⟨more, rfl⟩ := Nat.exists_eq_add_of_lt (not_le.mp higher)
  rw [add_assoc] at same inRight apart
  have first := head_eq_of_level_head_eq free leftNonempty rightNonempty inLeft inRight same
  obtain ⟨b, rightHead⟩ := exists_head_level combine rightNonempty more
  rw [getElem?_level_succ, rightHead] at first
  have pair := child_mem_combined (i := 0) (lt_succ_self more) rightHead
  exact apart _ (combined_subset (by omega) _ pair) (mem_of_getElem? first)

/-- Two lists with the same root are equal, or the longer one repeats its last item at some
level, if the function neither collides on the pairs of the two trees nor gives an item.
-/
theorem eq_or_repeats_of_root_eq (leftNonempty : left ≠ []) (rightNonempty : right ≠ [])
    (inLeft : ∀ p ∈ combined combine (treeHeight left.length) left, p ∈ s)
    (inRight : ∀ p ∈ combined combine (treeHeight right.length) right, p ∈ s)
    (apart : ∀ p ∈ s, uncurry combine p ∉ left ∧ uncurry combine p ∉ right) {root}
    (leftRoot : level combine (treeHeight left.length) left = [root])
    (rightRoot : level combine (treeHeight right.length) right = [root])
    : left = right
      ∨ (left.length < right.length
        ∧ ∃ k < treeHeight right.length, repeats (level combine k right) = true)
      ∨ (right.length < left.length
        ∧ ∃ k < treeHeight left.length, repeats (level combine k left) = true) := by
  have same : (level combine (treeHeight left.length) left)[0]?
      = (level combine (treeHeight right.length) right)[0]? := by
    rw [leftRoot, rightRoot]
  have lower := height_le_of_root_eq free leftNonempty rightNonempty inLeft inRight
    (fun p mem => (apart p (inRight p mem)).1) same
  have upper := height_le_of_root_eq free rightNonempty leftNonempty inRight inLeft
    (fun p mem => (apart p (inLeft p mem)).2) same.symm
  have equal : treeHeight right.length = treeHeight left.length := le_antisymm lower upper
  rw [equal] at inRight rightRoot ⊢
  exact eq_or_repeats_of_level_eq free inLeft inRight (leftRoot.trans rightRoot.symm)

end

end Resistance.Lib.PairTree

import Mathlib.Data.List.Basic
import Mathlib.Data.Option.Basic
import Mathlib.Logic.Function.Iterate

/-! Forests given by a parent function and a height that grows by one from parent to child:
the path from a node to its root, induction along it, and what depends on the path only.
-/

namespace Resistance.Lib.Forest

open List

variable {α : Type}

/-- The node, its parent, and so on, up to `n` steps. -/
def lineage (parent : α → Option α) : Nat → α → List α
  | 0, a => [a]
  | n + 1, a => a :: match parent a with
    | some b => lineage parent n b
    | none => []

theorem lineage_cons (parent : α → Option α) (n : Nat) (a : α)
    : ∃ rest, lineage parent n a = a :: rest := by
  cases n with
  | zero => exact ⟨[], rfl⟩
  | succ n => exact ⟨_, rfl⟩

theorem above_self [DecidableEq α] (parent : α → Option α) (n : Nat) (a : α)
    : (lineage parent n a).takeWhile (· ≠ a) = [] := by
  obtain ⟨rest, path⟩ := lineage_cons parent n a
  simp [path]

/-- Roots have height zero and children are one above their parents. -/
structure Graded (parent : α → Option α) (height : α → Nat) : Prop where
  root : ∀ {a}, parent a = none → height a = 0
  child : ∀ {a b}, parent a = some b → height a = height b + 1

namespace Graded

variable {parent : α → Option α} {height : α → Nat} (graded : Graded parent height)

include graded

variable {a b c : α}

theorem lineage_root (root : parent a = none)
    : lineage parent (height a) a = [a] := by
  rw [graded.root root]
  rfl

theorem lineage_child (child : parent a = some b)
    : lineage parent (height a) a = a :: lineage parent (height b) b := by
  rw [graded.child child, lineage, child]

/-- What passes from parents to children holds everywhere. -/
theorem induction {P : α → Prop} (step : ∀ a, (∀ b, parent a = some b → P b) → P a) (a : α)
    : P a := by
  generalize level : height a = n
  induction n generalizing a with
  | zero =>
    apply step
    intro b child
    rw [graded.child child] at level
    cases level
  | succ n ih =>
    apply step
    intro b child
    apply ih
    rw [graded.child child] at level
    exact Nat.succ.inj level

theorem mem_lineage
    : c ∈ lineage parent (height a) a
      ↔ c = a ∨ ∃ b, parent a = some b ∧ c ∈ lineage parent (height b) b := by
  cases child : parent a with
  | none => simp [graded.lineage_root child]
  | some b => simp [graded.lineage_child child]

theorem mem_of_child (child : parent a = some b) (above : c ∈ lineage parent (height b) b)
    : c ∈ lineage parent (height a) a :=
  graded.mem_lineage.mpr (.inr ⟨b, child, above⟩)

/-- A set of nodes that is closed under parents holds the path of each of them. -/
theorem mem_of_closed {inside : α → Prop} (closed : ∀ a b, inside a → parent a = some b → inside b)
    (mem : inside a) (ancestor : c ∈ lineage parent (height a) a)
    : inside c := by
  induction a using graded.induction with
  | step a ih =>
    rcases graded.mem_lineage.mp ancestor with rfl | ⟨b, child, above⟩
    · exact mem
    · exact ih b child (closed a b mem child) above

theorem length_lineage (a : α) : (lineage parent (height a) a).length = height a + 1 := by
  induction a using graded.induction with
  | step a ih =>
    cases child : parent a with
    | none => rw [graded.lineage_root child, graded.root child, length_singleton]
    | some b => rw [graded.lineage_child child, length_cons, ih b child, graded.child child]

/-- The path from an ancestor is the end of the path from the node. -/
theorem lineage_suffix (ancestor : c ∈ lineage parent (height a) a)
    : lineage parent (height c) c <:+ lineage parent (height a) a := by
  induction a using graded.induction with
  | step a ih =>
    rcases graded.mem_lineage.mp ancestor with rfl | ⟨b, child, above⟩
    · exact suffix_refl _
    · rw [graded.lineage_child child]
      exact (ih b child above).trans (suffix_cons a _)

theorem height_le (ancestor : c ∈ lineage parent (height a) a)
    : height c ≤ height a := by
  have lengths := (graded.lineage_suffix ancestor).length_le
  rw [graded.length_lineage, graded.length_lineage] at lengths
  exact Nat.le_of_succ_le_succ lengths

/-- Every height up to its own is met on the path of a node. -/
theorem exists_at_height {n} (bound : n ≤ height a)
    : ∃ c ∈ lineage parent (height a) a, height c = n := by
  induction a using graded.induction with
  | step a ih =>
    rcases Nat.lt_or_eq_of_le bound with below | rfl
    · cases child : parent a with
      | none =>
        rw [graded.root child] at below
        cases below
      | some b =>
        rw [graded.child child] at below
        obtain ⟨c, ancestor, level⟩ := ih b child (Nat.le_of_lt_succ below)
        exact ⟨c, graded.mem_of_child child ancestor, level⟩
    · exact ⟨a, graded.mem_lineage.mpr (.inl rfl), rfl⟩

theorem self_mem (a : α) : a ∈ lineage parent (height a) a :=
  graded.mem_lineage.mpr (.inl rfl)

theorem ancestor_trans (upper : b ∈ lineage parent (height a) a)
    (lower : c ∈ lineage parent (height b) b)
    : c ∈ lineage parent (height a) a :=
  (graded.lineage_suffix upper).subset lower

/-- An ancestor is met after as many steps as it is lower. -/
theorem iterate_of_mem (ancestor : c ∈ lineage parent (height a) a)
    : (Option.bind · parent)^[height a - height c] (some a) = some c := by
  induction a using graded.induction with
  | step a ih =>
    rcases graded.mem_lineage.mp ancestor with rfl | ⟨b, child, above⟩
    · rw [Nat.sub_self]
      rfl
    · rw [graded.child child, Nat.succ_sub (graded.height_le above), Function.iterate_succ_apply,
        Option.bind_some, child]
      exact ih b child above

/-- Of two nodes of a path the lower one is an ancestor of the higher one. -/
theorem mem_of_height_le (left : b ∈ lineage parent (height a) a)
    (right : c ∈ lineage parent (height a) a) (lower : height b ≤ height c)
    : b ∈ lineage parent (height c) c := by
  have within := suffix_of_suffix_length_le (graded.lineage_suffix left)
    (graded.lineage_suffix right) (by simpa [graded.length_lineage] using lower)
  exact within.subset (graded.self_mem b)

/-- A path has one node of each height. -/
theorem eq_of_height_eq (left : b ∈ lineage parent (height a) a)
    (right : c ∈ lineage parent (height a) a) (same : height b = height c)
    : b = c := by
  rcases graded.mem_lineage.mp (graded.mem_of_height_le left right (Nat.le_of_eq same)) with
    rfl | ⟨d, child, above⟩
  · rfl
  · have below := graded.height_le above
    rw [graded.child child] at same
    omega

/-- The first node of a path with a property is above all others with it. -/
theorem mem_of_find {P} (found : (lineage parent (height a) a).find? P = some b)
    (ancestor : c ∈ lineage parent (height a) a) (holds : P c = true)
    : c ∈ lineage parent (height b) b := by
  induction a using graded.induction with
  | step a ih =>
    by_cases here : P a = true
    · obtain ⟨rest, path⟩ := lineage_cons parent (height a) a
      rw [path, find?_cons_of_pos here] at found
      cases found
      exact ancestor
    · rcases graded.mem_lineage.mp ancestor with rfl | ⟨d, child, above⟩
      · exact absurd holds here
      · rw [graded.lineage_child child, find?_cons_of_neg here] at found
        exact ih d child found above

/-- Paths stay the same when the parents of a set of nodes that holds them do. -/
theorem lineage_congr {other} {otherHeight : α → Nat} (inside : α → Prop)
    (closed : ∀ a b, inside a → parent a = some b → inside b)
    (parents : ∀ a, inside a → other a = parent a)
    (heights : ∀ a, inside a → otherHeight a = height a) (mem : inside a)
    : lineage other (otherHeight a) a = lineage parent (height a) a := by
  rw [heights a mem]
  induction a using graded.induction with
  | step a ih =>
    cases child : parent a with
    | none =>
      rw [graded.root child]
      rfl
    | some b =>
      have next := ih b child (closed a b mem child)
      rw [graded.child child, lineage, lineage, parents a mem, child]
      exact congrArg (a :: ·) next

theorem ne_of_child (child : parent a = some b) (ancestor : c ∈ lineage parent (height b) b)
    : a ≠ c := by
  rintro rfl
  have below := graded.height_le ancestor
  rw [graded.child child] at below
  exact absurd below (Nat.not_succ_le_self _)

section Above

variable [DecidableEq α]

theorem above_child (child : parent a = some b) (ne : a ≠ c)
    : (lineage parent (height a) a).takeWhile (· ≠ c)
      = a :: (lineage parent (height b) b).takeWhile (· ≠ c) := by
  rw [graded.lineage_child child]
  simp [ne]

section

variable (upper : b ∈ lineage parent (height a) a)
include upper

/-- A path splits at each of its nodes. -/
theorem above_append (lower : c ∈ lineage parent (height b) b)
    : (lineage parent (height a) a).takeWhile (· ≠ c)
      = (lineage parent (height a) a).takeWhile (· ≠ b)
        ++ (lineage parent (height b) b).takeWhile (· ≠ c) := by
  induction a using graded.induction with
  | step a ih =>
    rcases graded.mem_lineage.mp upper with rfl | ⟨d, child, upper⟩
    · rw [above_self, nil_append]
    · have ne := graded.ne_of_child child upper
      have neLower := graded.ne_of_child child (graded.ancestor_trans upper lower)
      rw [graded.above_child child ne, graded.above_child child neLower, ih d child upper,
        cons_append]

theorem lineage_above
    : lineage parent (height a) a
      = (lineage parent (height a) a).takeWhile (· ≠ b) ++ lineage parent (height b) b := by
  induction a using graded.induction with
  | step a ih =>
    rcases graded.mem_lineage.mp upper with rfl | ⟨d, child, upper⟩
    · rw [above_self, nil_append]
    · have ne := graded.ne_of_child child upper
      rw [graded.above_child child ne, cons_append, ← ih d child upper, graded.lineage_child child]

/-- A node above another one is a descendant of it, and what is between them is above too. -/
theorem mem_above (mem : c ∈ (lineage parent (height a) a).takeWhile (· ≠ b))
    : b ∈ lineage parent (height c) c
      ∧ (lineage parent (height c) c).takeWhile (· ≠ b)
        ⊆ (lineage parent (height a) a).takeWhile (· ≠ b) := by
  induction a using graded.induction with
  | step a ih =>
    rcases graded.mem_lineage.mp upper with rfl | ⟨d, child, ancestor⟩
    · rw [above_self] at mem
      cases mem
    have ne := graded.ne_of_child child ancestor
    rw [graded.above_child child ne] at mem ⊢
    rcases mem_cons.mp mem with rfl | below
    · refine ⟨upper, ?_⟩
      rw [graded.above_child child ne]
      exact fun _ => id
    · obtain ⟨descendant, between⟩ := ih d child ancestor below
      exact ⟨descendant, fun _ inside => mem_cons_of_mem _ (between inside)⟩

end

end Above

end Graded

end Resistance.Lib.Forest

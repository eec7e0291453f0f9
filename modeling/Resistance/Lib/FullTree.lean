import Mathlib.Tactic.Ring

/-! Complete binary trees over a leaf sequence, hashed by a level-dependent function.
The sequence is total; a finite list of leaves is read with a filler beyond its end.
-/

namespace Resistance.Lib.FullTree

variable {Hash : Type*}

/-- The root of the complete tree of the given depth over `leaves 0, leaves 1, ...`.
The two halves of a tree of depth `depth + 1` are combined at level `depth`.
-/
def root (combine : Hash → Hash → Nat → Hash) : Nat → (Nat → Hash) → Hash
  | 0, leaves => leaves 0
  | depth + 1, leaves =>
    combine (root combine depth leaves)
      (root combine depth (fun i => leaves (2 ^ depth + i))) depth

/-- The root of the subtree of depth `depth` over the `index`-th aligned block. -/
def node (combine : Hash → Hash → Nat → Hash) (leaves : Nat → Hash) (depth index : Nat)
    : Hash :=
  root combine depth (fun i => leaves (index * 2 ^ depth + i))

/-- The root of a complete tree all of whose leaves are `leaf`. -/
def emptyRoot (combine : Hash → Hash → Nat → Hash) (leaf : Hash) : Nat → Hash
  | 0 => leaf
  | depth + 1 =>
    combine (emptyRoot combine leaf depth) (emptyRoot combine leaf depth) depth

variable {combine : Hash → Hash → Nat → Hash} {leaves other : Nat → Hash}

/-- Trees over sequences that agree below `2 ^ depth` have the same root, by induction on
the depth. -/
theorem root_congr {depth} (same : ∀ i < 2 ^ depth, leaves i = other i)
    : root combine depth leaves = root combine depth other := by
  induction depth generalizing leaves other with
  | zero => exact same 0 (by simp)
  | succ depth ih =>
    have left := ih (fun i below => same i (by omega))
    have right : root combine depth (fun i => leaves (2 ^ depth + i))
        = root combine depth (fun i => other (2 ^ depth + i)) :=
      ih (fun i below => same (2 ^ depth + i) (by omega))
    simp only [root, left, right]

@[simp] theorem node_zero (index : Nat) : node combine leaves 0 index = leaves index := by
  simp [node, root]

/-- The start of a block, counted in blocks of half its size. -/
theorem block_succ (index depth : Nat)
    : index * 2 ^ (depth + 1) = 2 * index * 2 ^ depth := by
  rw [pow_succ]; ring

/-- A node combines its two children, which are the blocks `2 * index` and
`2 * index + 1` one level below. -/
theorem node_succ (combine : Hash → Hash → Nat → Hash) (leaves : Nat → Hash) (depth index : Nat)
    : node combine leaves (depth + 1) index
      = combine (node combine leaves depth (2 * index))
          (node combine leaves depth (2 * index + 1)) depth := by
  have next (i : Nat)
      : 2 * index * 2 ^ depth + (2 ^ depth + i) = (2 * index + 1) * 2 ^ depth + i := by
    ring
  simp only [node, root, block_succ, next]

theorem root_eq_node (depth : Nat)
    : root combine depth leaves = node combine leaves depth 0 := by
  simp [node]

/-- A node only depends on the leaves of its own block. -/
theorem node_congr {depth index}
    (same : ∀ i, index * 2 ^ depth ≤ i → i < (index + 1) * 2 ^ depth → leaves i = other i)
    : node combine leaves depth index = node combine other depth index := by
  have next : (index + 1) * 2 ^ depth = index * 2 ^ depth + 2 ^ depth := by ring
  exact root_congr (fun i below => same _ (by omega) (by omega))

/-- A node whose block lies beyond every committed leaf is an empty root. -/
theorem node_empty {leaf depth index} (blank : ∀ i, index * 2 ^ depth ≤ i → leaves i = leaf)
    : node combine leaves depth index = emptyRoot combine leaf depth := by
  have const : root combine depth (fun _ => leaf) = emptyRoot combine leaf depth := by
    clear blank
    induction depth with
    | zero => rfl
    | succ depth ih => simp only [root, emptyRoot, ih]
  rw [← const]
  exact root_congr (fun i _ => blank _ (by omega))

/-- Shifting the sequence by a whole number of blocks shifts the node indices. -/
theorem node_shift (offset depth index : Nat)
    : node combine (fun i => leaves (offset * 2 ^ depth + i)) depth index
      = node combine leaves depth (offset + index) := by
  have start (i : Nat)
      : offset * 2 ^ depth + (index * 2 ^ depth + i)
        = (offset + index) * 2 ^ depth + i := by
    ring
  simp only [node, start]

end Resistance.Lib.FullTree

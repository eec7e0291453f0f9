import Resistance.Lib.Checks
import Resistance.Zcash.IncrementalMerkleTree

/-! The incremental tree is the frontier of a complete tree: after `n` appends its parents
are the binary digits of the number of collapsed pairs, each holding the node it stands for.
-/

namespace Resistance.Zcash

open List Lib FullTree IncrementalMerkleTree Nat

variable {Hash : Type}

/-- The sequence of leaves of a tree to which `committed` has been appended. -/
def leavesOf (ops : MerkleHash Hash) (committed : List Hash) (i : Nat) : Hash :=
  committed.getD i ops.uncommitted

variable {ops : MerkleHash Hash} {committed : List Hash} {i n d m steps : Nat}
  {parents : List (Option Hash)}

theorem leavesOf_beyond (beyond : committed.length ≤ i)
    : leavesOf ops committed i = ops.uncommitted := by
  simp [leavesOf, beyond]

variable {later queue : List Hash}

theorem leavesOf_append_right {obj} (found : later[i]? = some obj)
    : leavesOf ops (committed ++ later) (committed.length + i) = obj := by
  simp [leavesOf, getElem?_append_right, found]

/-- The hard-coded table lists the roots of trees of uncommitted leaves. -/
theorem MerkleHash.emptyRoot_eq (ops : MerkleHash Hash) (depth : Nat)
    : FullTree.emptyRoot ops.combine ops.uncommitted depth = ops.emptyRoot depth := by
  induction depth with
  | zero => exact ops.emptyRoot_zero.symm
  | succ depth ih => simp only [FullTree.emptyRoot, ih, ops.emptyRoot_succ]

/-- The hash whose table is computed from its own combining function. -/
def MerkleHash.ofCombine (combine : Hash → Hash → Nat → Hash) (uncommitted : Hash)
    (bytes : Hash → List UInt8)
    : MerkleHash Hash where
  combine := combine
  uncommitted := uncommitted
  emptyRoot := FullTree.emptyRoot combine uncommitted
  bytes := bytes
  emptyRoot_zero := rfl
  emptyRoot_succ := fun _ => rfl

/-- `parents` from level `d` on hold the binary digits of `m`, lowest first and without a
leading zero. A one at a level is the left sibling of the path node at that level.
-/
inductive Frontier (ops : MerkleHash Hash) (leaves : Nat → Hash)
    : Nat → Nat → List (Option Hash) → Prop
  | nil (d : Nat) : Frontier ops leaves d 0 []
  | odd {d m : Nat} {parents} (above : Frontier ops leaves (d + 1) m parents)
    : Frontier ops leaves d (2 * m + 1)
        (some (FullTree.node ops.combine leaves d (2 * m)) :: parents)
  | even {d m : Nat} {parents} (pos : 0 < m)
    (above : Frontier ops leaves (d + 1) m parents)
    : Frontier ops leaves d (2 * m) (none :: parents)

/-- The tree holds the frontier of the first `n` leaves. -/
inductive Represents (ops : MerkleHash Hash) (leaves : Nat → Hash)
    : Nat → IncrementalMerkleTree Hash → Prop
  | empty : Represents ops leaves 0 {}
  | odd {k : Nat} {parents} (above : Frontier ops leaves 1 k parents)
    : Represents ops leaves (2 * k + 1) ⟨some (leaves (2 * k)), none, parents⟩
  | even {k : Nat} {parents} (above : Frontier ops leaves 1 k parents)
    : Represents ops leaves (2 * k + 2)
        ⟨some (leaves (2 * k)), some (leaves (2 * k + 1)), parents⟩

variable {leaves other : Nat → Hash}

section

variable (frontier : Frontier ops leaves d m parents)
include frontier

/-- A frontier over a number of at most `e` binary digits has at most `e` parents. -/
theorem Frontier.length_le {e} (bound : m < 2 ^ e)
    : parents.length ≤ e := by
  induction frontier generalizing e with
  | nil => simp
  | odd above ih =>
    cases e with
    | zero => simp at bound
    | succ e =>
      have := ih (e := e) (by rw [pow_succ] at bound; omega)
      simp only [length_cons]
      omega
  | even pos above ih =>
    cases e with
    | zero => simp at bound; omega
    | succ e =>
      have := ih (e := e) (by rw [pow_succ] at bound; omega)
      simp only [length_cons]
      omega

/-- All parents are present exactly when the number is one less than a power of two. -/
theorem Frontier.all_isSome_iff (e : Nat)
    : (parents.length = e ∧ parents.all Option.isSome = true) ↔ m + 1 = 2 ^ e := by
  induction frontier generalizing e with
  | nil =>
    cases e with
    | zero => simp
    | succ e =>
      simp only [length_nil]
      omega
  | odd above ih =>
    cases e with
    | zero => simp
    | succ e =>
      have step := ih e
      simp only [length_cons, all_cons, Option.isSome_some, Bool.true_and,
        add_right_cancel_iff, step]
      omega
  | even pos above ih =>
    cases e with
    | zero => simp; omega
    | succ e =>
      constructor
      · rintro ⟨_, impossible⟩
        cases impossible
      · omega

/-- The last parent is present: a number is written without leading zeros. -/
theorem Frontier.getLast_ne_none (nonempty : parents ≠ [])
    : parents.getLast?.join ≠ none := by
  induction frontier with
  | nil => exact absurd rfl nonempty
  | @odd d m parents above ih =>
    cases parents with
    | nil => simp
    | cons parent rest => simpa using ih (by simp)
  | @even d m parents pos above ih =>
    cases above with
    | nil => omega
    | odd above => simpa using ih (by simp)
    | even pos above => simpa using ih (by simp)

/-- A frontier depends only on the leaves it covers. -/
theorem Frontier.congr (same : ∀ i < m * 2 ^ d, leaves i = other i)
    : Frontier ops other d m parents := by
  induction frontier with
  | nil d => exact .nil d
  | @odd d m parents above ih =>
    have covered : m * 2 ^ (d + 1) ≤ (2 * m + 1) * 2 ^ d := by
      rw [block_succ]
      exact mul_le_mul_right _ (by omega)
    rw [node_congr (fun i _ below => same i below)]
    exact .odd (ih (fun i below => same i (below.trans_le covered)))
  | @even d m parents pos above ih =>
    rw [← block_succ] at same
    exact .even pos (ih same)

end

/-- A tree represents any sequence with the same first `n` leaves. -/
theorem Represents.congr {tree} (represents : Represents ops leaves n tree)
    (same : ∀ i < n, leaves i = other i)
    : Represents ops other n tree := by
  cases represents with
  | empty => exact .empty
  | odd above =>
    rw [same _ (by omega)]
    exact .odd (above.congr (fun i below => same i (by omega)))
  | even above =>
    rw [same _ (by omega), same _ (by omega)]
    exact .even (above.congr (fun i below => same i (by omega)))

namespace IncrementalMerkleTree

variable {Depth : Nat} {tree : IncrementalMerkleTree Hash}

/-- The carry loop increments the number that the parents write in binary, provided it has
room for one more digit. Witness: induction along the digits; a one combines with the carry
into the node above, a zero or the end absorbs it.
-/
theorem appendParents_frontier {i m parents} (frontier : Frontier ops leaves (i + 1) m parents)
    (room : i + parents.length < Depth)
    : Frontier ops leaves (i + 1) (m + 1)
        (appendParents ops Depth i parents
          (node ops.combine leaves (i + 1) m)) := by
  generalize level : i + 1 = d at frontier
  induction frontier generalizing i with
  | nil =>
    have inside : i < Depth := by simpa using room
    simp only [appendParents, inside]
    exact .odd (.nil _)
  | @odd d m parents above ih =>
    subst level
    simp only [length_cons] at room
    have inside : i < Depth := by omega
    simp only [appendParents, inside, ← node_succ]
    exact .even m.succ_pos (ih (by omega) rfl)
  | even pos above ih =>
    have inside : i < Depth := by omega
    simp only [appendParents, inside]
    exact .odd above

section

variable (represents : Represents ops leaves n tree)
include represents

section

variable (pos : 0 < Depth)
include pos

theorem isComplete_iff
    : tree.isComplete Depth = true ↔ n = 2 ^ Depth := by
  obtain ⟨e, rfl⟩ : ∃ e, Depth = e + 1 := ⟨Depth - 1, by omega⟩
  cases represents with
  | empty =>
    have := Nat.two_pow_pos (e + 1)
    simp only [isComplete, Option.isSome_none, Bool.false_and, Bool.false_eq_true, false_iff]
    omega
  | odd above =>
    simp only [isComplete, Option.isSome_none, Bool.and_false, Bool.false_and,
      Bool.false_eq_true, false_iff]
    omega
  | even above =>
    have full := above.all_isSome_iff e
    simp only [isComplete, Option.isSome_some, Bool.true_and,
      Bool.and_eq_true, beq_iff_eq, add_right_cancel_iff, full]
    omega

/-- Appending the next leaf to the frontier of `n` of them gives the frontier of `n + 1`. -/
theorem append_represents (room : n < 2 ^ Depth)
    : ∃ next, tree.append ops Depth (leaves n) = .ok next
      ∧ Represents ops leaves (n + 1) next := by
  have open_ : ¬ tree.isComplete Depth = true := by
    rw [isComplete_iff represents pos]
    omega
  cases represents with
  | empty =>
    refine ⟨_, if_neg open_, ?_⟩
    exact .odd (.nil 1)
  | odd above =>
    refine ⟨_, if_neg open_, ?_⟩
    exact .even above
  | @even k parents above =>
    obtain ⟨e, rfl⟩ : ∃ e, Depth = e + 1 := ⟨Depth - 1, by omega⟩
    have short : parents.length ≤ e := above.length_le (by rw [pow_succ] at room; omega)
    refine ⟨_, if_neg open_, ?_⟩
    have pair : node ops.combine leaves 1 k
        = ops.combine (leaves (2 * k)) (leaves (2 * k + 1)) 0 := by
      rw [node_succ, node_zero, node_zero]
    rw [← pair]
    exact .odd (appendParents_frontier above (by omega))

theorem append_full (full : n = 2 ^ Depth) (obj : Hash)
    : tree.append ops Depth obj = .error "tree is full" :=
  if_pos ((isComplete_iff represents pos).mpr full)

theorem wfcheck_represents (bound : n ≤ 2 ^ Depth)
    : tree.wfcheck Depth = .ok () := by
  obtain ⟨e, rfl⟩ : ∃ e, Depth = e + 1 := ⟨Depth - 1, by omega⟩
  have digits {k : Nat} {parents : List (Option Hash)}
      (above : Frontier ops leaves 1 k parents) (small : 2 * k < 2 ^ (e + 1))
      : ¬ parents.length ≥ e + 1 := by
    have short : parents.length ≤ e := above.length_le (by rw [pow_succ] at small; omega)
    omega
  cases represents with
  | empty => simp [wfcheck]
  | odd above | even above =>
    have short := digits above (by omega)
    have canonical := above.getLast_ne_none
    simpa [wfcheck, short] using canonical

end

end

end IncrementalMerkleTree

/-- The filler queue provides, for `steps` levels from `d` on, the right sibling of every
path node that is a left child; `m` is the index of the path node at level `d`.
-/
def Supplies (ops : MerkleHash Hash) (leaves : Nat → Hash)
    : Nat → Nat → Nat → List Hash → Prop
  | 0, _, _, _ => True
  | steps + 1, d, m, queue =>
    if m % 2 = 1 then Supplies ops leaves steps (d + 1) (m / 2) queue
    else
      (IncrementalMerkleTree.fillerNext ops d queue).1
          = FullTree.node ops.combine leaves d (m + 1)
        ∧ Supplies ops leaves steps (d + 1) (m / 2)
            (IncrementalMerkleTree.fillerNext ops d queue).2

theorem supplies_odd
    : Supplies ops leaves (steps + 1) d (2 * m + 1) queue
      ↔ Supplies ops leaves steps (d + 1) m queue := by
  simp [Supplies, mul_add_div]

theorem supplies_even
    : Supplies ops leaves (steps + 1) d (2 * m) queue
      ↔ (fillerNext ops d queue).1
            = node ops.combine leaves d (2 * m + 1)
          ∧ Supplies ops leaves steps (d + 1) m
              (fillerNext ops d queue).2 := by
  simp [Supplies]

/-- The empty queue supplies every sibling that lies beyond the last leaf, because the
table's entries are the roots of uncommitted subtrees.
-/
theorem supplies_empty (blank : ∀ i, n ≤ i → leaves i = ops.uncommitted)
    (beyond : n ≤ (m + 1) * 2 ^ d)
    : Supplies ops leaves steps d m [] := by
  induction steps generalizing d m with
  | zero => trivial
  | succ steps ih =>
    have above : n ≤ (m / 2 + 1) * 2 ^ (d + 1) := by
      rw [block_succ]
      exact beyond.trans (mul_le_mul_right _ (by omega))
    simp only [Supplies]
    split
    · exact ih above
    · refine ⟨(ops.emptyRoot_eq d).symm.trans ?_, ih above⟩
      exact (FullTree.node_empty fun i start => blank i (by omega)).symm

/-- The siblings of the path from node `m` at level `d`, each with whether it is on the
left of the path.
-/
def siblings (ops : MerkleHash Hash) (leaves : Nat → Hash)
    : Nat → Nat → Nat → List (Hash × Bool)
  | 0, _, _ => []
  | steps + 1, d, m =>
    (if m % 2 = 1 then (FullTree.node ops.combine leaves d (m - 1), true)
      else (FullTree.node ops.combine leaves d (m + 1), false))
      :: siblings ops leaves steps (d + 1) (m / 2)

/-- Hashing upwards from a node at level `d` along an authentication path. -/
def recomputeRoot (ops : MerkleHash Hash) : Nat → Hash → List (Hash × Bool) → Hash
  | _, current, [] => current
  | d, current, (sibling, true) :: rest =>
    recomputeRoot ops (d + 1) (ops.combine sibling current d) rest
  | d, current, (sibling, false) :: rest =>
    recomputeRoot ops (d + 1) (ops.combine current sibling d) rest

theorem siblings_odd (steps d m : Nat)
    : siblings ops leaves (steps + 1) d (2 * m + 1)
      = (node ops.combine leaves d (2 * m), true)
        :: siblings ops leaves steps (d + 1) m := by
  simp [siblings, mul_add_div]

theorem siblings_even (steps d m : Nat)
    : siblings ops leaves (steps + 1) d (2 * m)
      = (node ops.combine leaves d (2 * m + 1), false)
        :: siblings ops leaves steps (d + 1) m := by
  simp [siblings]

theorem siblings_length (steps d m : Nat)
    : (siblings ops leaves steps d m).length = steps := by
  induction steps generalizing d m with
  | zero => rfl
  | succ steps ih => rw [siblings, length_cons, ih]

/-- The sides are the binary digits of the index, lowest first. -/
theorem siblings_sides (steps d m : Nat)
    : (siblings ops leaves steps d m).map Prod.snd = (List.range steps).map m.testBit := by
  induction steps generalizing d m with
  | zero => rfl
  | succ steps ih =>
    rw [siblings, map_cons, ih, range_succ_eq_map, map_cons, map_map]
    congr 1
    · split <;> simp_all
    · exact map_congr_left (fun i _ => (testBit_succ m i).symm)

/-- Recomputing from a node along its siblings gives the node `steps` levels up. -/
theorem recomputeRoot_siblings (ops : MerkleHash Hash) (leaves : Nat → Hash) (bound : m < 2 ^ steps)
    : recomputeRoot ops d (node ops.combine leaves d m)
        (siblings ops leaves steps d m)
      = node ops.combine leaves (d + steps) 0 := by
  induction steps generalizing d m with
  | zero =>
    obtain rfl : m = 0 := by simpa using bound
    rfl
  | succ steps ih =>
    rcases even_or_odd' m with ⟨k, rfl | rfl⟩
    · rw [siblings_even, recomputeRoot, ← node_succ ops.combine leaves, ih (by omega)]
      rw [add_assoc, add_comm 1 steps]
    · rw [siblings_odd, recomputeRoot, ← node_succ ops.combine leaves, ih (by omega)]
      rw [add_assoc, add_comm 1 steps]

theorem recomputeRoot_leaf (ops : MerkleHash Hash) (leaves : Nat → Hash) (bound : n < 2 ^ steps)
    : recomputeRoot ops 0 (leaves n) (siblings ops leaves steps 0 n)
      = node ops.combine leaves steps 0 := by
  have climbed := recomputeRoot_siblings ops leaves (d := 0) bound
  rwa [node_zero, zero_add] at climbed

namespace IncrementalMerkleTree

variable {tree : IncrementalMerkleTree Hash} {Depth : Nat}

theorem pathFill_supplies (supplies : Supplies ops leaves steps d 0 queue)
    : pathFill ops steps d queue = siblings ops leaves steps d 0 := by
  induction steps generalizing d queue with
  | zero => rfl
  | succ steps ih =>
    obtain ⟨sibling, rest⟩ := (supplies_even (m := 0)).mp supplies
    rw [pathFill, ih rest, sibling, ← siblings_even]

theorem pathParents_supplies {m parents} (frontier : Frontier ops leaves d m parents)
    (bound : m < 2 ^ steps) (supplies : Supplies ops leaves steps d m queue)
    : pathParents ops (d + steps) parents d queue = siblings ops leaves steps d m := by
  induction frontier generalizing steps queue with
  | nil d =>
    rw [pathParents, Nat.add_sub_cancel_left]
    exact pathFill_supplies supplies
  | @odd d m parents above ih =>
    cases steps with
    | zero => simp at bound
    | succ steps =>
      have small : m < 2 ^ steps := by rw [pow_succ] at bound; omega
      have next := ih small (supplies_odd.mp supplies)
      rw [add_right_comm, add_assoc] at next
      rw [pathParents, next, siblings_odd]
  | @even d m parents pos above ih =>
    cases steps with
    | zero => simp at bound; omega
    | succ steps =>
      obtain ⟨sibling, rest⟩ := supplies_even.mp supplies
      have small : m < 2 ^ steps := by rw [pow_succ] at bound; omega
      have next := ih small rest
      rw [add_right_comm, add_assoc] at next
      rw [pathParents, next, sibling, siblings_even]

theorem pathSiblings_supplies {Depth} (represents : Represents ops leaves (n + 1) tree)
    (pos : 0 < Depth) (bound : n < 2 ^ Depth) (supplies : Supplies ops leaves Depth 0 n queue)
    : tree.pathSiblings ops Depth queue = .ok (siblings ops leaves Depth 0 n) := by
  obtain ⟨steps, rfl⟩ : ∃ steps, Depth = 1 + steps := ⟨Depth - 1, by omega⟩
  rw [add_comm] at bound
  rw [add_comm 1 steps] at supplies
  generalize size : n + 1 = count at represents
  cases represents with
  | empty => omega
  | @odd k parents above =>
    obtain rfl : n = 2 * k := by omega
    obtain ⟨sibling, rest⟩ := supplies_even.mp supplies
    have parents := pathParents_supplies above (by omega) rest
    simp only [pathSiblings, parents, sibling]
    rw [add_comm 1 steps, siblings_even]
  | @even k parents above =>
    obtain rfl : n = 2 * k + 1 := by omega
    have parents := pathParents_supplies above (by omega) (supplies_odd.mp supplies)
    simp only [pathSiblings, parents]
    rw [add_comm 1 steps, siblings_odd, node_zero]

theorem last_represents (represents : Represents ops leaves (n + 1) tree)
    : tree.last = .ok (leaves n) := by
  generalize size : n + 1 = count at represents
  cases represents with
  | empty => omega
  | @odd k parents above =>
    obtain rfl : n = 2 * k := by omega
    rfl
  | @even k parents above =>
    obtain rfl : n = 2 * k + 1 := by omega
    rfl

/-! `root` hashes upwards from the last leaf along the siblings that `path` lists. -/

theorem rootFill_eq (steps d : Nat) (root : Hash) (filler : List Hash)
    : rootFill ops steps d root filler
      = recomputeRoot ops d root (pathFill ops steps d filler) := by
  induction steps generalizing d root filler with
  | zero => rfl
  | succ steps ih => exact ih ..

theorem rootParents_eq (depth : Nat) (parents : List (Option Hash)) (d : Nat) (root : Hash)
    (filler : List Hash)
    : rootParents ops depth parents d root filler
      = recomputeRoot ops d root (pathParents ops depth parents d filler) := by
  induction parents generalizing d root filler with
  | nil => exact rootFill_eq ..
  | cons parent rest ih =>
    cases parent with
    | none => exact ih ..
    | some hash => exact ih ..

theorem rootWith_eq {path leaf} (isPath : tree.pathSiblings ops Depth queue = .ok path)
    (isLast : tree.last = .ok leaf)
    : tree.rootWith ops Depth queue = recomputeRoot ops 0 leaf path := by
  obtain ⟨left, right, parents⟩ := tree
  cases left with
  | none => cases isPath
  | some left =>
    cases right with
    | none | some right =>
      cases isPath
      cases isLast
      exact rootParents_eq ..

/-- With a queue for the path of the last leaf, `root` is the node over all leaves. -/
theorem rootWith_supplies {depth} (represents : Represents ops leaves (n + 1) tree)
    (pos : 0 < depth) (bound : n < 2 ^ depth) (supplies : Supplies ops leaves depth 0 n queue)
    : tree.rootWith ops depth queue = node ops.combine leaves depth 0 := by
  rw [rootWith_eq (pathSiblings_supplies represents pos bound supplies)
    (last_represents represents)]
  exact recomputeRoot_leaf ops leaves bound

/-- Without fillers, `root` pads the represented leaves with uncommitted ones. The empty
tree is the frontier of one uncommitted leaf.
-/
theorem rootWith_represents {depth} (represents : Represents ops leaves n tree)
    (pos : 0 < depth) (bound : n ≤ 2 ^ depth) (blank : ∀ i, n ≤ i → leaves i = ops.uncommitted)
    : tree.rootWith ops depth [] = FullTree.root ops.combine depth leaves := by
  rw [FullTree.root_eq_node]
  cases n with
  | zero =>
    cases represents
    have one : Represents ops leaves (0 + 1) ⟨some (leaves 0), none, []⟩ := .odd (.nil 1)
    rw [← rootWith_supplies one pos (Nat.two_pow_pos depth)
      (supplies_empty blank (zero_le _))]
    simp only [rootWith, fillerNext, ops.emptyRoot_zero, blank 0 (le_refl 0)]
  | succ n =>
    exact rootWith_supplies represents pos (by omega)
      (supplies_empty blank (by simp))

/-- Successive calls of `append`, stopping at the first that throws. -/
def appendAll (ops : MerkleHash Hash) (Depth : Nat)
    (tree : IncrementalMerkleTree Hash) (objs : List Hash)
    : Except String (IncrementalMerkleTree Hash) :=
  objs.foldlM (fun tree obj => tree.append ops Depth obj) tree

/-- Appending a list of leaves to the empty tree gives its frontier. -/
theorem appendAll_empty (ops : MerkleHash Hash) (pos : 0 < Depth) {committed}
    (room : committed.length ≤ 2 ^ Depth)
    : ∃ tree, appendAll ops Depth {} committed = .ok tree
      ∧ Represents ops (leavesOf ops committed) committed.length tree := by
  have listed (i : Nat) (obj : Hash) (found : committed[i]? = some obj)
      : leavesOf ops committed (0 + i) = obj := by
    simp [leavesOf, found]
  simpa [appendAll] using Checks.foldlM_listed
    (fun here inside => append_represents here pos inside) .empty listed (by omega)

/-- The incremental tree over any list of at most `2 ^ Depth` leaves is well formed, has the
root of the full tree padded with uncommitted leaves, and refuses a further leaf exactly
when it is full.
-/
theorem appendAll_root (ops : MerkleHash Hash) {Depth : Nat} (pos : 0 < Depth)
    {committed : List Hash} (room : committed.length ≤ 2 ^ Depth)
    : ∃ tree, appendAll ops Depth {} committed = .ok tree
      ∧ tree.root ops Depth
        = FullTree.root ops.combine Depth (leavesOf ops committed)
      ∧ tree.wfcheck Depth = .ok ()
      ∧ ∀ obj, (∃ error, tree.append ops Depth obj = .error error)
        ↔ committed.length = 2 ^ Depth := by
  obtain ⟨tree, run, represents⟩ := appendAll_empty ops pos room
  refine ⟨tree, run, ?_, wfcheck_represents represents pos room, ?_⟩
  · exact rootWith_represents represents pos room (fun i => leavesOf_beyond)
  intro obj
  constructor
  · rintro ⟨error, thrown⟩
    by_contra partially
    have open_ : ¬ tree.isComplete Depth = true := by
      rwa [isComplete_iff represents pos]
    rw [append, if_neg open_] at thrown
    split at thrown <;> cases thrown
  · intro full
    exact ⟨_, append_full represents pos full obj⟩

theorem appendAll_root_three
    : let ops := MerkleHash.ofCombine (fun a b d => 3 * a + 5 * b + d) 7 (fun _ => [])
      ∃ tree, appendAll ops 2 {} [1, 2, 4] = .ok tree
        ∧ tree.root ops 2 = FullTree.root ops.combine 2 (leavesOf ops [1, 2, 4])
        ∧ tree.wfcheck 2 = .ok ()
        ∧ ∀ obj, (∃ error, tree.append ops 2 obj = .error error)
          ↔ ([1, 2, 4] : List Nat).length = 2 ^ 2 :=
  appendAll_root _ (by decide) (by decide)

/-! The size of a tree is read off its parents. -/

theorem shifted_one : ∀ i : Fin 30, ((1 : Int32) <<< Int32.ofNat (i.val + 1)).toInt64.toUInt64
    = UInt64.ofNat (2 ^ (i.val + 1)) := by
  decide

/-- The parents are counted as the number they write, but for its highest digit: `1 << 31` is
negative.
-/
theorem sizeParents_frontier (frontier : Frontier ops leaves d m parents) {steps}
    (short : parents.length ≤ steps) (index : i + steps = 31) (ret : UInt64)
    : sizeParents i ret parents
      = ret + UInt64.ofNat (m * 2 ^ (i + 1)) - UInt64.ofNat (2 * m / 2 ^ steps * 2 ^ 32) := by
  induction frontier generalizing i steps ret with
  | nil => simp [sizeParents]
  | @odd d m parents above ih =>
    rcases steps with _ | _ | steps
    · cases short
    · obtain rfl := eq_nil_of_length_eq_zero (le_zero.mp (le_of_succ_le_succ short))
      cases above
      obtain rfl : i = 30 := by omega
      rw [UInt64.sub_eq_add_neg, UInt64.add_assoc]
      rfl
    · have next := ih (le_of_succ_le_succ short) (by omega : i + 1 + (steps + 1) = 31)
      have top : 2 * (2 * m + 1) / 2 ^ (steps + 2) = 2 * m / 2 ^ (steps + 1) := by
        rw [pow_succ', pow_succ', Nat.mul_div_mul_left _ _ Nat.two_pos,
          Nat.mul_div_mul_left _ _ Nat.two_pos, ← Nat.div_div_eq_div_mul]
        congr 1
        omega
      have digits : (2 * m + 1) * 2 ^ (i + 1) = 2 ^ (i + 1) + m * 2 ^ (i + 1 + 1) := by ring
      rw [top, digits, UInt64.ofNat_add, ← UInt64.add_assoc, ← shifted_one ⟨i, by omega⟩]
      exact next _
  | @even d m parents pos above ih =>
    cases steps with
    | zero => cases short
    | succ steps =>
      have next := ih (Nat.le_of_succ_le_succ short) (by omega : i + 1 + steps = 31) ret
      have top : 2 * (2 * m) / 2 ^ (steps + 1) = 2 * m / 2 ^ steps := by
        rw [pow_succ', Nat.mul_div_mul_left _ _ Nat.two_pos]
      have digits : 2 * m * 2 ^ (i + 1) = m * 2 ^ (i + 1 + 1) := by ring
      rw [top, digits]
      exact next

theorem size_represents (represents : Represents ops leaves n tree) (bound : n ≤ 2 ^ 32)
    : tree.size.toNat = if n ≤ 2 ^ 31 then n else (2 ^ 64 - 2 ^ 32 + n) % 2 ^ 64 := by
  have counted {k : Nat} {parents : List (Option Hash)} (above : Frontier ops leaves 1 k parents)
      (small : k < 2 ^ 31) (ret : UInt64)
      : (sizeParents 0 ret parents).toNat
        = (ret.toNat + 2 * k + (2 ^ 64 - k / 2 ^ 30 * 2 ^ 32)) % 2 ^ 64 := by
    rw [sizeParents_frontier above (above.length_le small) rfl ret, UInt64.toNat_sub,
      UInt64.toNat_add, UInt64.toNat_ofNat', UInt64.toNat_ofNat']
    omega
  cases represents with
  | empty => rfl
  | @odd k parents above =>
    refine (counted above (by omega) 1).trans ?_
    rw [UInt64.toNat_one]
    split <;> omega
  | @even k parents above =>
    refine (counted above (by omega) 2).trans ?_
    rw [show (2 : UInt64).toNat = 2 from rfl]
    split <;> omega

/-- The size and the position of the last leaf are right for up to `2 ^ 31` leaves; with more of
them the size is less by `2 ^ 32`, modulo `2 ^ 64`.
-/
theorem size_eq_length_iff (ops : MerkleHash Hash) (room : committed.length ≤ 2 ^ 32)
    : ∃ tree, appendAll ops 32 {} committed = .ok tree
      ∧ (tree.size.toNat = committed.length ↔ committed.length ≤ 2 ^ 31)
      ∧ (committed ≠ [] → (tree.witness.position.toNat = committed.length - 1
        ↔ committed.length ≤ 2 ^ 31)) := by
  obtain ⟨tree, run, represents⟩ := appendAll_empty ops (by decide : 0 < 32) room
  have size := size_represents represents room
  refine ⟨tree, run, ?_, fun nonempty => ?_⟩
  · rw [size]
    split <;> omega
  have pos := length_pos_of_ne_nil nonempty
  have position : tree.witness.position.toNat = (2 ^ 64 - 1 + tree.size.toNat) % 2 ^ 64 :=
    UInt64.toNat_sub tree.size 1
  rw [position, size]
  split <;> omega

/-- One leaf beyond `2 ^ 31`. -/
theorem size_wraps
    : ∃ tree, appendAll (.ofCombine (fun a b d => 3 * a + 5 * b + d) 7 fun _ => []) 32 {}
        (replicate (2 ^ 31 + 1) 1) = .ok tree
      ∧ tree.size.toNat = 2 ^ 64 - 2 ^ 31 + 1 := by
  have length : (replicate (2 ^ 31 + 1) 1).length = 2 ^ 31 + 1 := length_replicate
  obtain ⟨tree, run, represents⟩ := appendAll_empty
    (.ofCombine (fun a b d => 3 * a + 5 * b + d) 7 fun _ => []) (by decide : 0 < 32)
    (by rw [length]; decide)
  exact ⟨tree, run, by rw [size_represents represents (by rw [length]; decide), length]; rfl⟩

theorem size_eq_length_iff_three
    : ∃ tree, appendAll (.ofCombine (fun a b d => 3 * a + 5 * b + d) 7 fun _ => []) 32 {} [1, 2, 4]
        = .ok tree
      ∧ (tree.size.toNat = 3 ↔ 3 ≤ 2 ^ 31)
      ∧ ([1, 2, 4] ≠ [] → (tree.witness.position.toNat = 2 ↔ 3 ≤ 2 ^ 31)) :=
  size_eq_length_iff _ (by decide)

end IncrementalMerkleTree

end Resistance.Zcash

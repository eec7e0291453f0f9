import Resistance.Zcash.MerkleFrontier

/-! The witness of a leaf collects, level by level, the right siblings on the leaf's path.
The siblings already complete and the subtree being filled are read off the leaf's index,
and every later append keeps them in step with the tree.
-/

namespace Resistance.Zcash

open List Lib FullTree IncrementalMerkleTree Nat Lib.Checks

variable {Hash : Type} {ops : MerkleHash Hash} {leaves : Nat → Hash}

/-- From node `m` at level `d` the path reaches the left child `2 * j` at level `e`.
Every right sibling in between lies within the first `count` leaves and is listed.
-/
inductive Climb (ops : MerkleHash Hash) (leaves : Nat → Hash) (count : Nat)
    : Nat → Nat → List Hash → Nat → Nat → Prop
  | stop (d j : Nat) : Climb ops leaves count d (2 * j) [] d j
  | right {d m e j : Nat} {filled} (above : Climb ops leaves count (d + 1) m filled e j)
    : Climb ops leaves count d (2 * m + 1) filled e j
  | done {d m e j : Nat} {filled} (complete : (m + 1) * 2 ^ (d + 1) ≤ count)
    (above : Climb ops leaves count (d + 1) m filled e j)
    : Climb ops leaves count d (2 * m)
        (FullTree.node ops.combine leaves d (2 * m + 1) :: filled) e j

/-- Above a complete block nothing is filled yet up to the first left child, where the
block ends exactly at the sibling's start.
-/
theorem Climb.start (count d m : Nat)
    : ∃ e j, Climb ops leaves count d m [] e j
      ∧ (2 * j + 1) * 2 ^ e = (m + 1) * 2 ^ d := by
  induction m using Nat.strong_induction_on generalizing d with
  | _ m ih =>
    rcases even_or_odd' m with ⟨k, rfl | rfl⟩
    · exact ⟨d, k, .stop d k, rfl⟩
    · obtain ⟨e, j, climb, same⟩ := ih k (by omega) (d + 1)
      refine ⟨e, j, .right climb, ?_⟩
      rw [same, block_succ]
      rfl

variable {count d m e j n Depth : Nat} {filled : List Hash} {tree : IncrementalMerkleTree Hash}

section

variable (climb : Climb ops leaves count d m filled e j)
include climb

theorem Climb.mono {later} (grown : count ≤ later)
    : Climb ops leaves later d m filled e j := by
  induction climb with
  | stop d j => exact .stop d j
  | right above ih => exact .right ih
  | done complete above ih => exact .done (complete.trans grown) ih

/-- Completing the sibling where a climb stopped continues it one level up. -/
theorem Climb.extend {e' j' rest} (complete : (j + 1) * 2 ^ (e + 1) ≤ count)
    (above : Climb ops leaves count (e + 1) j rest e' j')
    : Climb ops leaves count d m
        (filled ++ node ops.combine leaves e (2 * j + 1) :: rest) e' j' := by
  induction climb with
  | stop d j => exact .done complete above
  | right _ ih => exact .right (ih complete above)
  | done filledAlready _ ih => exact .done filledAlready (ih complete above)

/-- The parents of the witnessed tree and the number of filled siblings determine the level
at which the climb stopped.
-/
theorem Climb.nextDepthParents_eq {parents} (frontier : Frontier ops leaves d m parents)
    : nextDepthParents parents d filled.length = e := by
  induction climb generalizing parents with
  | stop d j =>
    generalize index : 2 * j = m at frontier
    cases frontier with
    | nil => rfl
    | odd above => omega
    | even pos above => rfl
  | @right d m e j filled above ih =>
    generalize index : 2 * m + 1 = m' at frontier
    cases frontier with
    | nil => omega
    | @odd _ k _ digits =>
      obtain rfl : m = k := by omega
      exact ih digits
    | even pos digits => omega
  | @done d m e j filled complete above ih =>
    generalize index : 2 * m = m' at frontier
    cases frontier with
    | nil =>
      obtain rfl : m = 0 := by omega
      have next := ih (.nil (d + 1))
      simp only [nextDepthParents, length_cons] at next ⊢
      omega
    | odd digits => omega
    | @even _ k _ pos digits =>
      obtain rfl : m = k := by omega
      exact ih digits

end

theorem Climb.nextDepth_eq (climb : Climb ops leaves count 0 n filled e j)
    (represents : Represents ops leaves (n + 1) tree)
    : tree.nextDepth filled.length = e := by
  generalize size : n + 1 = total at represents
  cases represents with
  | empty => omega
  | @odd k parents frontier =>
    cases climb with
    | stop => rfl
    | right => omega
    | @done _ k' _ _ _ complete above =>
      obtain rfl : k = k' := by omega
      exact above.nextDepthParents_eq frontier
  | @even k parents frontier =>
    cases climb with
    | stop => omega
    | @right _ k' _ _ _ above =>
      obtain rfl : k = k' := by omega
      exact above.nextDepthParents_eq frontier
    | done => omega

variable {queue : List Hash} {steps : Nat}

/-- The filled siblings followed by what is supplied where the climb stopped serve the
whole path.
-/
theorem Climb.supplies (climb : Climb ops leaves count d m filled e j)
    (rest : ∀ steps, Supplies ops leaves steps e (2 * j) queue) (steps : Nat)
    : Supplies ops leaves steps d m (filled ++ queue) := by
  induction climb generalizing steps with
  | stop d j => exact rest steps
  | right above ih =>
    cases steps with
    | zero => trivial
    | succ steps => exact supplies_odd.mpr (ih rest steps)
  | done complete above ih =>
    cases steps with
    | zero => trivial
    | succ steps => exact supplies_even.mpr ⟨rfl, ih rest steps⟩

/-- The sibling of node `2 * j` at level `e` has not been started, or the cursor holds the
leaves it has so far.
-/
inductive CursorAt (ops : MerkleHash Hash) (leaves : Nat → Hash) (count e j : Nat)
    : Option (IncrementalMerkleTree Hash) → Nat → Prop
  | idle {cursorDepth : Nat} (boundary : count = (2 * j + 1) * 2 ^ e)
    : CursorAt ops leaves count e j none cursorDepth
  | filling {cursor} {size : Nat} (boundary : count = (2 * j + 1) * 2 ^ e + size)
    (started : 0 < size) (unfinished : size < 2 ^ e) (represents
      : Represents ops (fun i => leaves ((2 * j + 1) * 2 ^ e + i)) size cursor)
    : CursorAt ops leaves count e j (some cursor) e

/-- The witness of leaf `n` after `count` leaves of the sequence have been appended. -/
structure Witnesses (ops : MerkleHash Hash) (leaves : Nat → Hash) (n count : Nat)
    (witness : IncrementalWitness Hash) : Prop where
  tree : Represents ops leaves (n + 1) witness.tree
  state : ∃ e j, Climb ops leaves count 0 n witness.filled e j
    ∧ CursorAt ops leaves count e j witness.cursor witness.cursorDepth

/-- A sequence of complete blocks: every level of the last leaf's path is a right child. -/
theorem supplies_full
    : Supplies ops leaves steps d (2 ^ steps - 1) queue := by
  induction steps generalizing d with
  | zero => trivial
  | succ steps ih =>
    have pos := Nat.two_pow_pos steps
    have index : 2 ^ (steps + 1) - 1 = 2 * (2 ^ steps - 1) + 1 := by
      omega
    rw [index]
    exact supplies_odd.mpr ih

theorem pow_lt_of_boundary (start : (2 * j + 1) * 2 ^ e ≤ count) (room : count < 2 ^ Depth)
    : e < Depth := by
  have block : 2 ^ e ≤ (2 * j + 1) * 2 ^ e := Nat.le_mul_of_pos_left _ (by omega)
  exact (Nat.pow_lt_pow_iff_right one_lt_two).mp ((block.trans start).trans_lt room)

theorem pos_of_lt_two_pow (pos : 0 < n) (small : n < 2 ^ d) : 0 < d := by
  rcases d with _ | d
  · omega
  · exact succ_pos d

/-- When the sibling at level `e` is complete, the climb goes on to the next left child. -/
theorem Witnesses.complete (represents : Represents ops leaves (n + 1) tree)
    (climb : Climb ops leaves count 0 n filled e j) (boundary : count + 1 = (2 * j + 2) * 2 ^ e)
    (cursorDepth : Nat)
    : Witnesses ops leaves n (count + 1)
        ⟨tree, filled ++ [node ops.combine leaves e (2 * j + 1)], none, cursorDepth⟩ := by
  obtain ⟨e', j', above, next⟩ := Climb.start (count + 1) (e + 1) j
  have whole : count + 1 = (j + 1) * 2 ^ (e + 1) := by
    rw [block_succ, boundary]
    rfl
  refine ⟨represents, e', j', ?_, .idle (by rw [next, whole])⟩
  exact (climb.mono (le_succ count)).extend whole.ge above

namespace IncrementalWitness

/-- Appending the next leaf of the sequence keeps the witness in step with the tree, as
long as the tree itself has room. Witness: the climb says which level is being filled; a
leaf completes it, starts its cursor or goes into the cursor.
-/
theorem append_witnesses {witness} (witnesses : Witnesses ops leaves n count witness)
    (pos : 0 < Depth) (room : count < 2 ^ Depth)
    : ∃ next, witness.append ops Depth (leaves count) = .ok next
      ∧ Witnesses ops leaves n (count + 1) next := by
  obtain ⟨tree, filled, cursor, depth⟩ := witness
  obtain ⟨represents, e, j, climb, cursorAt⟩ := witnesses
  dsimp only at represents climb cursorAt
  have double : (2 * j + 2) * 2 ^ e = (2 * j + 1) * 2 ^ e + 2 ^ e := by ring
  cases cursorAt with
  | idle boundary =>
    have below : ¬ e ≥ Depth := by
      have := pow_lt_of_boundary boundary.ge room
      omega
    have level : tree.nextDepth filled.length = e := climb.nextDepth_eq represents
    cases e with
    | zero =>
      have here : leaves count = node ops.combine leaves 0 (2 * j + 1) := by
        rw [node_zero, boundary, pow_zero, mul_one]
      simp only [append, level, below, here]
      refine ⟨_, rfl, Witnesses.complete represents climb ?_ 0⟩
      omega
    | succ e =>
      have unstarted
          : Represents ops (fun i => leaves ((2 * j + 1) * 2 ^ (e + 1) + i)) 0 {} :=
        .empty
      obtain ⟨next, appended, started⟩ := append_represents unstarted pos (Nat.two_pow_pos Depth)
      rw [add_zero, ← boundary] at appended
      refine ⟨{ tree, filled, cursor := some next, cursorDepth := e + 1 }, ?_, ?_⟩
      · simp only [append, level, below]
        rw [appended]
        rfl
      · have two := Nat.one_lt_two_pow (n := e + 1) (by omega)
        refine ⟨represents, e + 1, j, climb.mono (le_succ count), ?_⟩
        exact .filling (by omega) one_pos two started
  | @filling cursor size boundary started unfinished filling =>
    have level := pos_of_lt_two_pow started unfinished
    obtain ⟨next, appended, grown⟩ := append_represents filling pos (by omega)
    rw [← boundary] at appended
    have full := isComplete_iff grown level
    by_cases last : next.isComplete depth = true
    · have size' := full.mp last
      have before : size = 2 ^ depth - 1 := by omega
      rw [before] at grown
      -- The root of a complete tree needs no filler.
      have node : next.rootWith ops depth [] = _ :=
        rootWith_supplies grown level (by omega) supplies_full
      rw [node_shift] at node
      refine ⟨_, ?_, Witnesses.complete represents climb (by omega) depth⟩
      simp only [append, appended, Except.bind, bind, last, node]
      rfl
    · refine ⟨{ tree, filled, cursor := some next, cursorDepth := depth }, ?_, ?_⟩
      · simp only [append, appended, Except.bind, bind]
        rw [if_neg last]
        rfl
      · have short : size + 1 ≠ 2 ^ depth := fun whole => last (full.mpr whole)
        refine ⟨represents, depth, j, climb.mono (le_succ count), ?_⟩
        exact .filling (by omega) (by omega) (by omega) grown

/-- Successive calls of `append`, stopping at the first that throws. -/
def appendAll (ops : MerkleHash Hash) (Depth : Nat) (witness : IncrementalWitness Hash)
    (objs : List Hash)
    : Except String (IncrementalWitness Hash) :=
  objs.foldlM (fun witness obj => witness.append ops Depth obj) witness

/-- The partial path supplies the whole path of the witnessed leaf: the cursor's root is
the sibling it stands for, padded with uncommitted leaves.
-/
theorem partialPath_supplies {witness} (witnesses : Witnesses ops leaves n count witness)
    (blank : ∀ i, count ≤ i → leaves i = ops.uncommitted) (steps : Nat)
    : Supplies ops leaves steps 0 n (witness.partialPath ops) := by
  obtain ⟨tree, filled, cursor, depth⟩ := witness
  obtain ⟨represents, e, j, climb, cursorAt⟩ := witnesses
  dsimp only at climb cursorAt
  cases cursorAt with
  | idle boundary =>
    have rest (steps : Nat) : Supplies ops leaves steps e (2 * j) [] :=
      supplies_empty blank boundary.le
    simpa [partialPath] using climb.supplies rest steps
  | @filling cursor size boundary started unfinished filling =>
    have level := pos_of_lt_two_pow started unfinished
    have node := rootWith_represents filling level unfinished.le
      (fun i beyond => blank _ (by omega))
    have end_ : count ≤ (j + 1) * 2 ^ (depth + 1) := by
      have double : (2 * (j + 1)) * 2 ^ depth = (2 * j + 1) * 2 ^ depth + 2 ^ depth := by
        ring
      rw [block_succ]
      omega
    have rest (steps : Nat)
        : Supplies ops leaves steps depth (2 * j)
            [cursor.rootWith ops depth []] := by
      cases steps with
      | zero => trivial
      | succ steps => exact supplies_even.mpr ⟨node, supplies_empty blank end_⟩
    exact climb.supplies rest steps

end IncrementalWitness

section

variable {witness : IncrementalWitness Hash} (witnesses : Witnesses ops leaves n count witness)
  (pos : 0 < Depth) (bound : n < 2 ^ Depth) (blank : ∀ i, count ≤ i → leaves i = ops.uncommitted)
include witnesses pos bound blank

/-- The path of a witness lists the siblings of its leaf, from the root down. -/
theorem IncrementalWitness.path_witnesses
    : witness.path ops Depth
      = .ok {
          authenticationPath :=
            ((siblings ops leaves Depth 0 n).map
              (fun s => convertBytesVectorToVector (ops.bytes s.1))).reverse
          index := ((siblings ops leaves Depth 0 n).map Prod.snd).reverse
        } := by
  have supplies := partialPath_supplies witnesses blank Depth
  have listed := IncrementalMerkleTree.pathSiblings_supplies witnesses.tree pos bound supplies
  simp only [path, IncrementalMerkleTree.path, listed]
  rfl

/-- The root of a witness is that of the whole sequence. -/
theorem Witnesses.root_eq
    : witness.root ops Depth = node ops.combine leaves Depth 0 :=
  rootWith_supplies witnesses.tree pos bound
    (IncrementalWitness.partialPath_supplies witnesses blank Depth)

end

/-! A witness that is kept up to date: it was taken when its leaf was appended and has been given
every leaf since.
-/

variable {committed : List Hash} {witness : IncrementalWitness Hash}

/-- The witness of leaf `n` among the leaves that have been committed. -/
structure Tracks (ops : MerkleHash Hash) (Depth : Nat) (committed : List Hash) (n : Nat)
    (witness : IncrementalWitness Hash) : Prop where
  inside : n < committed.length
  run : ∃ tree, IncrementalMerkleTree.appendAll ops Depth {} (committed.take (n + 1)) = .ok tree
    ∧ tree.witness.appendAll ops Depth (committed.drop (n + 1)) = .ok witness

/-- The witness has the root of the tree of all leaves, and its path leads from leaf `n` to that
root along the binary digits of `n`.
-/
structure Authenticates (ops : MerkleHash Hash) (Depth : Nat) (committed : List Hash) (n : Nat)
    (witness : IncrementalWitness Hash) : Prop where
  root : ∃ tree, IncrementalMerkleTree.appendAll ops Depth {} committed = .ok tree
    ∧ witness.root ops Depth = tree.root ops Depth
  element : ∃ leaf, committed[n]? = some leaf ∧ witness.element = .ok leaf
    ∧ ∃ path, ∃ hashes : List Hash, witness.path ops Depth = .ok path
      ∧ path.index = ((List.range Depth).map n.testBit).reverse
      ∧ hashes.length = Depth
      ∧ path.authenticationPath
        = (hashes.map (fun hash => convertBytesVectorToVector (ops.bytes hash))).reverse
      ∧ recomputeRoot ops 0 leaf (hashes.zip path.index.reverse) = witness.root ops Depth

/-- A further leaf fits into the tree. -/
theorem appendAll_last (pos : 0 < Depth) (room : committed.length < 2 ^ Depth)
    (run : appendAll ops Depth {} committed = .ok tree) (leaf : Hash)
    : ∃ next, tree.append ops Depth leaf = .ok next
      ∧ appendAll ops Depth {} (committed ++ [leaf]) = .ok next := by
  have roomLater : (committed ++ [leaf]).length ≤ 2 ^ Depth := by
    rw [length_append]
    exact room
  obtain ⟨next, longer, -⟩ := appendAll_empty ops pos roomLater
  refine ⟨next, ?_, longer⟩
  rw [appendAll, foldlM_append] at longer
  obtain ⟨_, before, last⟩ := bind_ok.mp longer
  cases run.symm.trans before
  obtain ⟨_, appended, isNext⟩ := foldlM_cons_ok.mp last
  cases isNext
  exact appended

/-- No more leaves are appended than the tree has room for. -/
theorem length_le_of_appendAll (pos : 0 < Depth) (run : appendAll ops Depth {} committed = .ok tree)
    : committed.length ≤ 2 ^ Depth := by
  by_contra full
  have size : (committed.take (2 ^ Depth)).length = 2 ^ Depth := by
    rw [length_take]
    omega
  have more : committed.drop (2 ^ Depth) ≠ [] := by
    rw [Ne, drop_eq_nil_iff]
    omega
  obtain ⟨obj, rest, isRest⟩ := exists_cons_of_ne_nil more
  rw [← take_append_drop (2 ^ Depth) committed, isRest, appendAll, foldlM_append] at run
  obtain ⟨full, before, later⟩ := bind_ok.mp run
  obtain ⟨_, sameRun, represents⟩ := appendAll_empty ops pos size.le
  cases before.symm.trans sameRun
  obtain ⟨next, appended, -⟩ := foldlM_cons_ok.mp later
  rw [append_full represents pos size obj] at appended
  cases appended

/-- The witness of the last leaf takes all the tree has room for, also with a view to leaves that
are still to come.
-/
theorem witness_appendAll (pos : 0 < Depth) (size : committed.length = n + 1)
    (run : appendAll ops Depth {} committed = .ok tree) {later}
    (room : committed.length + later.length ≤ 2 ^ Depth) (more : List Hash)
    : ∃ witness, tree.witness.appendAll ops Depth later = .ok witness
      ∧ Witnesses ops (leavesOf ops (committed ++ (later ++ more))) n (n + 1 + later.length)
        witness := by
  obtain ⟨_, sameRun, initial⟩ := appendAll_empty ops pos (le_of_add_right_le room)
  cases run.symm.trans sameRun
  have represents : Represents ops (leavesOf ops (committed ++ (later ++ more))) (n + 1) tree := by
    rw [← size]
    exact initial.congr fun i below => by simp [leavesOf, getElem?_append_left below]
  obtain ⟨e, j, climb, boundary⟩ := Climb.start (n + 1) 0 n
  -- a fresh witness of the last leaf has nothing filled
  refine Checks.foldlM_listed
    (fun here inside => IncrementalWitness.append_witnesses here pos inside)
    ⟨represents, e, j, climb, .idle (by rw [boundary, pow_zero, mul_one])⟩ ?_ (by omega)
  intro i obj found
  rw [← size]
  apply leavesOf_append_right
  rw [getElem?_append_left (List.getElem?_eq_some_iff.mp found).1, found]

/-- The last leaf is witnessed by the tree itself. -/
theorem tracks_last {leaf} (run : appendAll ops Depth {} (committed ++ [leaf]) = .ok tree)
    : Tracks ops Depth (committed ++ [leaf]) committed.length tree.witness := by
  have whole : committed.length + 1 = (committed ++ [leaf]).length := by simp
  refine ⟨by omega, tree, ?_, ?_⟩
  · rw [whole, take_length]
    exact run
  · rw [whole, drop_length]
    rfl

section

variable (tracks : Tracks ops Depth committed n witness)
include tracks

/-- What the run of a witness has come to, also with a view to leaves that are still to come. -/
theorem Tracks.witnesses (pos : 0 < Depth) (room : committed.length ≤ 2 ^ Depth) (later : List Hash)
    : Witnesses ops (leavesOf ops (committed ++ later)) n committed.length witness := by
  obtain ⟨inside, tree, treeRun, run⟩ := tracks
  have size : (committed.take (n + 1)).length = n + 1 := by
    rw [length_take]
    omega
  have rest : n + 1 + (committed.drop (n + 1)).length = committed.length := by
    rw [length_drop]
    omega
  have fits : (committed.take (n + 1)).length + (committed.drop (n + 1)).length ≤ 2 ^ Depth := by
    rwa [size, rest]
  obtain ⟨_, sameRun, witnesses⟩ := witness_appendAll pos size treeRun fits later
  cases run.symm.trans sameRun
  rwa [rest, ← append_assoc, take_append_drop] at witnesses

/-- A further leaf is given to the witness. -/
theorem Tracks.append (pos : 0 < Depth) (room : committed.length < 2 ^ Depth) (leaf : Hash)
    : ∃ next, witness.append ops Depth leaf = .ok next
      ∧ Tracks ops Depth (committed ++ [leaf]) n next := by
  obtain ⟨next, appended, -⟩ := IncrementalWitness.append_witnesses
    (tracks.witnesses pos room.le [leaf]) pos room
  have isLeaf : leavesOf ops (committed ++ [leaf]) committed.length = leaf :=
    leavesOf_append_right (i := 0) rfl
  rw [isLeaf] at appended
  obtain ⟨inside, tree, treeRun, run⟩ := tracks
  refine ⟨next, appended, ?_, tree, ?_, ?_⟩
  · rw [length_append]
    omega
  · rw [take_append_of_le_length (by omega)]
    exact treeRun
  · rw [drop_append_of_le_length (by omega), IncrementalWitness.appendAll, foldlM_append]
    refine bind_ok.mpr ⟨witness, run, ?_⟩
    rw [foldlM_cons, appended]
    rfl

/-- A witness that is up to date authenticates its leaf. -/
theorem Tracks.authenticates (pos : 0 < Depth) (room : committed.length ≤ 2 ^ Depth)
    : Authenticates ops Depth committed n witness := by
  have witnesses := tracks.witnesses pos room []
  rw [append_nil] at witnesses
  have inside := tracks.inside
  have bound : n < 2 ^ Depth := by omega
  have blank : ∀ i, committed.length ≤ i → leavesOf ops committed i = ops.uncommitted :=
    fun i beyond => leavesOf_beyond beyond
  have root := witnesses.root_eq pos bound blank
  have found : committed[n]? = some (leavesOf ops committed n) := by
    simp [leavesOf, getElem?_eq_getElem inside]
  obtain ⟨tree, run, represents⟩ := appendAll_empty ops pos room
  refine ⟨⟨tree, run, ?_⟩, leavesOf ops committed n, found, last_represents witnesses.tree, _,
    (siblings ops (leavesOf ops committed) Depth 0 n).map Prod.fst,
    IncrementalWitness.path_witnesses witnesses pos bound blank, ?_, ?_, ?_, ?_⟩
  · rw [root, ← FullTree.root_eq_node]
    exact (rootWith_represents represents pos room blank).symm
  · rw [siblings_sides]
  · rw [length_map, siblings_length]
  · rw [map_map]
    rfl
  · rw [reverse_reverse, root]
    rw [← recomputeRoot_leaf ops _ bound, ← unzip_fst, ← unzip_snd, zip_unzip]

end

/-- A witness taken after `committed` and given the leaves `later` never throws while the
tree has room, has the tree's root, and its path leads from the witnessed leaf to that root
along the binary digits of the leaf's position.
-/
theorem witness_follows_tree (ops : MerkleHash Hash) {Depth : Nat} (pos : 0 < Depth)
    {committed later : List Hash} (nonempty : committed ≠ [])
    (room : committed.length + later.length ≤ 2 ^ Depth)
    : ∃ tree final witness path, ∃ hashes : List Hash,
        IncrementalMerkleTree.appendAll ops Depth {} committed = .ok tree
        ∧ tree.appendAll ops Depth later = .ok final
        ∧ tree.witness.appendAll ops Depth later = .ok witness
        ∧ witness.root ops Depth = final.root ops Depth
        ∧ witness.element = .ok (committed.getLast nonempty)
        ∧ witness.path ops Depth = .ok path
        ∧ path.index
          = ((List.range Depth).map (committed.length - 1).testBit).reverse
        ∧ hashes.length = Depth
        ∧ path.authenticationPath
          = (hashes.map (fun hash => convertBytesVectorToVector (ops.bytes hash))).reverse
        ∧ recomputeRoot ops 0 (committed.getLast nonempty)
            (hashes.zip path.index.reverse)
          = final.root ops Depth := by
  obtain ⟨n, size⟩ := exists_eq_succ_of_ne_zero (length_pos_of_ne_nil nonempty).ne'
  have whole : (committed ++ later).length ≤ 2 ^ Depth := by rwa [length_append]
  obtain ⟨final, run, -⟩ := appendAll_empty ops pos whole
  have split := run
  rw [appendAll, foldlM_append] at split
  obtain ⟨tree, treeRun, laterRun⟩ := bind_ok.mp split
  obtain ⟨witness, witnessRun, -⟩ := witness_appendAll pos size treeRun room []
  have tracks : Tracks ops Depth (committed ++ later) n witness := by
    refine ⟨?_, tree, ?_, ?_⟩
    · rw [length_append]
      omega
    · rwa [← succ_eq_add_one, ← size, take_left]
    · rwa [← succ_eq_add_one, ← size, drop_left]
  obtain ⟨⟨_, sameRun, root⟩, leaf, found, element, path, hashes, isPath, sides, rest⟩ :=
    tracks.authenticates pos whole
  cases run.symm.trans sameRun
  have isLast : leaf = committed.getLast nonempty := by
    rw [getElem?_append_left (by omega), getElem?_eq_getElem (by omega)] at found
    rw [getLast_eq_getElem, ← Option.some.inj found]
    simp [size]
  rw [root, isLast] at rest
  rw [isLast] at element
  have position : n = committed.length - 1 := by omega
  rw [position] at sides
  exact ⟨tree, final, witness, path, hashes, treeRun, laterRun, witnessRun, root, element, isPath,
    sides, rest⟩

theorem witness_follows_tree_five
    : let ops := MerkleHash.ofCombine (fun a b d => 3 * a + 5 * b + d) 7 (fun _ => [])
      ∃ tree final witness path, ∃ hashes : List Nat,
        appendAll ops 3 {} [1, 2] = .ok tree
        ∧ tree.appendAll ops 3 [4, 8, 16] = .ok final
        ∧ tree.witness.appendAll ops 3 [4, 8, 16] = .ok witness
        ∧ witness.root ops 3 = final.root ops 3
        ∧ witness.element = .ok 2
        ∧ witness.path ops 3 = .ok path
        ∧ path.index = ((List.range 3).map (2 - 1).testBit).reverse
        ∧ hashes.length = 3
        ∧ path.authenticationPath
          = (hashes.map (fun hash => convertBytesVectorToVector (ops.bytes hash))).reverse
        ∧ recomputeRoot ops 0 2 (hashes.zip path.index.reverse) = final.root ops 3 :=
  witness_follows_tree _ (by decide) (by decide) (by decide)

end Resistance.Zcash

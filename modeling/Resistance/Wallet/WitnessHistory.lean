import Resistance.Wallet.NoteWise
import Resistance.Zcash.Witness

/-! What a witness cache is for: it has the witnesses of a note for the most recent blocks of the
chain, as far as the note was mined then. Connecting and disconnecting a block keeps each cache
that way.
-/

namespace Resistance.Wallet.NoteCache

open List Primitives Zcash Lib Lib.Checks Nat

/-- Note commitments in the order of the blocks, each with the outpoint of its note. -/
abbrev Outputs := List (NoteKey × Uint256)

def txOutputs (tx : CTransaction) : Outputs :=
  (sproutOutputs tx).map (fun output => (.sprout output.1, output.2))
    ++ (saplingOutputs tx).map fun output => (.sapling output.1, output.2)

def blockOutputs (block : CBlock) : Outputs := block.vtx.flatMap txOutputs

/-- The outputs of the blocks from the first one on; the tip is the head of the list. -/
def chainOutputs : List CBlock → Outputs
  | [] => []
  | block :: below => chainOutputs below ++ blockOutputs block

/-- The outputs as of each block of the chain, from the tip downwards. -/
def history : List CBlock → List Outputs
  | [] => []
  | block :: below => chainOutputs (block :: below) :: history below

theorem length_history (chain : List CBlock) : (history chain).length = chain.length := by
  induction chain with
  | nil => rfl
  | cons block below ih => rw [history, length_cons, ih, length_cons]

/-- The outputs of one pool. -/
def Outputs.ofPool (outputs : Outputs) (pool : Pool) : Outputs :=
  outputs.filter fun output => output.1.pool = pool

def Outputs.commitments (outputs : Outputs) (pool : Pool) : List Uint256 :=
  (outputs.ofPool pool).map Prod.snd

def Context.hash (context : Context) : Pool → MerkleHash Uint256
  | .sprout => context.sproutHash
  | .sapling => context.saplingHash

def Pool.depth : Pool → Nat
  | .sprout => incrementalMerkleTreeDepth
  | .sapling => saplingIncrementalMerkleTreeDepth

theorem Pool.depth_pos (pool : Pool) : 0 < pool.depth := by
  cases pool <;> decide

/-- The note of a transaction has been mined. -/
def Mined (outputs : Outputs) (hash : Uint256) (key : NoteKey) : Prop :=
  key.hash = hash ∧ key ∈ outputs.map Prod.fst

/-- The witness of a note is up to date. -/
structure Witnessed (context : Context) (hash : Uint256) (key : NoteKey) (outputs : Outputs)
    (witness : IncrementalWitness Uint256) : Prop where
  own : key.hash = hash
  tracks : ∃ n, ((outputs.ofPool key.pool).map Prod.fst)[n]? = some key
    ∧ Tracks (context.hash key.pool) key.pool.depth (outputs.commitments key.pool) n witness

variable {context : Context} {hash : Uint256} {key other : NoteKey} {outputs : Outputs}
  {witness : IncrementalWitness Uint256} {commitment : Uint256} {chain : List CBlock} {d : Nat}

theorem Witnessed.mined (witnessed : Witnessed context hash key outputs witness)
    : Mined outputs hash key := by
  obtain ⟨own, n, found, -⟩ := witnessed
  refine ⟨own, ?_⟩
  obtain ⟨output, listed, rfl⟩ := mem_map.mp (mem_of_getElem? found)
  exact mem_map_of_mem (mem_of_mem_filter listed)

/-- What was mined below the tip is mined. -/
theorem mined_of_history {i : Nat} (found : (history chain)[i]? = some outputs)
    (mined : Mined outputs hash key)
    : Mined (chainOutputs chain) hash key := by
  induction chain generalizing i with
  | nil => cases found
  | cons block below ih =>
    cases i with
    | zero =>
      cases found
      exact mined
    | succ i =>
      obtain ⟨own, listed⟩ := ih found
      refine ⟨own, ?_⟩
      rw [chainOutputs, map_append]
      exact mem_append_left _ listed

theorem Outputs.ofPool_append_ne (outputs : Outputs) {pool} (differs : other.pool ≠ pool)
    : Outputs.ofPool (outputs ++ [(other, commitment)]) pool = outputs.ofPool pool := by
  simp [ofPool, differs]

theorem Outputs.ofPool_append_eq (outputs : Outputs) {pool} (same : other.pool = pool)
    : Outputs.ofPool (outputs ++ [(other, commitment)]) pool
      = outputs.ofPool pool ++ [(other, commitment)] := by
  simp [ofPool, same]

/-- Outputs of the other pool do not matter. -/
theorem Witnessed.skip (witnessed : Witnessed context hash key outputs witness)
    (differs : other.pool ≠ key.pool)
    : Witnessed context hash key (outputs ++ [(other, commitment)]) witness := by
  obtain ⟨own, n, found, tracks⟩ := witnessed
  refine ⟨own, n, ?_, ?_⟩
  · rw [Outputs.ofPool_append_ne outputs differs]
    exact found
  · rw [Outputs.commitments, Outputs.ofPool_append_ne outputs differs]
    exact tracks

/-- Outputs of the pool are appended to the witness. -/
theorem Witnessed.append (witnessed : Witnessed context hash key outputs witness)
    (same : other.pool = key.pool)
    (room : (outputs.commitments key.pool).length < 2 ^ key.pool.depth)
    : ∃ next, witness.append (context.hash key.pool) key.pool.depth commitment = .ok next
      ∧ Witnessed context hash key (outputs ++ [(other, commitment)]) next := by
  obtain ⟨own, n, found, tracks⟩ := witnessed
  obtain ⟨next, run, tracksNext⟩ := tracks.append key.pool.depth_pos room commitment
  refine ⟨next, run, own, n, ?_, ?_⟩
  · rw [Outputs.ofPool_append_eq outputs same, map_append]
    exact getElem?_append_left (List.getElem?_eq_some_iff.mp found).1 |>.trans found
  · rw [Outputs.commitments, Outputs.ofPool_append_eq outputs same, map_append]
    exact tracksNext

variable {tree : IncrementalMerkleTree Uint256}

/-- The tree witnesses the note that was appended last. -/
theorem witnessed_last
    (run : IncrementalMerkleTree.appendAll (context.hash key.pool) key.pool.depth {}
      ((outputs ++ [(key, commitment)] : Outputs).commitments key.pool) = .ok tree)
    : Witnessed context key.hash key (outputs ++ [(key, commitment)]) tree.witness := by
  have last : Outputs.ofPool (outputs ++ [(key, commitment)]) key.pool
      = outputs.ofPool key.pool ++ [(key, commitment)] :=
    Outputs.ofPool_append_eq outputs rfl
  refine ⟨rfl, (outputs.commitments key.pool).length, ?_, ?_⟩
  · rw [last, Outputs.commitments]
    simp
  · rw [Outputs.commitments, last, map_append] at run ⊢
    exact tracks_last run

/-- The second list has a fitting element for each of the first elements of the first one. -/
inductive Covers {α β : Type} (P : α → β → Prop) : List α → List β → Prop where
  | nil (as : List α) : Covers P as []
  | cons {a : α} {b : β} {as : List α} {bs : List β} (first : P a b) (rest : Covers P as bs)
      : Covers P (a :: as) (b :: bs)

namespace Covers

variable {α β : Type} {P : α → β → Prop} {a : α} {as : List α} {bs : List β}

theorem length_le (covers : Covers P as bs) : bs.length ≤ as.length := by
  induction covers with
  | nil => exact zero_le _
  | cons _ _ ih => exact succ_le_succ ih

theorem tail (covers : Covers P (a :: as) bs) : Covers P as bs.tail := by
  cases covers with
  | nil => exact .nil as
  | cons _ rest => exact rest

theorem replace {a'} (covers : Covers P (a :: as) bs) (holds : ∀ b, P a b → P a' b)
    : Covers P (a' :: as) bs := by
  cases covers with
  | nil => exact .nil _
  | cons first rest => exact .cons (holds _ first) rest

theorem dropLast (covers : Covers P as bs) : Covers P as bs.dropLast := by
  induction covers with
  | nil => exact .nil _
  | @cons a b as bs first rest ih =>
    cases bs with
    | nil => exact .nil _
    | cons => exact .cons first ih

end Covers

/-- The witnesses of a note, where the tip is `d` blocks below the highest block so far: no more
than can be needed, and all that can be needed.
-/
structure Cached (context : Context) (snapshots : List Outputs) (d : Nat) (hash : Uint256)
    (key : NoteKey) (witnesses : List (IncrementalWitness Uint256)) : Prop where
  covers : Covers (Witnessed context hash key) snapshots witnesses
  upper : witnesses.length + d ≤ context.witnessCacheSize
  lower : ∀ i outputs, snapshots[i]? = some outputs → Mined outputs hash key
    → i + d < context.witnessCacheSize → i < witnesses.length

/-- How a note is kept between two blocks. -/
structure Kept (context : Context) (chain : List CBlock) (d : Nat) (hash : Uint256)
    (key : NoteKey) (nd : NoteData) : Prop where
  cached : Cached context (history chain) d hash key nd.witnesses
  height : nd.witnessHeight = -1 ∨ nd.witnessHeight = chain.length - 1

/-- How a note is kept while the outputs of a block on top of the chain are gone through. -/
structure Growing (context : Context) (chain : List CBlock) (outputs : Outputs) (d : Nat)
    (hash : Uint256) (key : NoteKey) (nd : NoteData) : Prop where
  cached : Cached context (outputs :: history chain) d hash key nd.witnesses
  behind : nd.witnessHeight < chain.length

/-- What `nWitnessCacheSize` is. -/
def cacheSize (context : Context) (length d : Nat) : Nat :=
  min (context.witnessCacheSize - d) length

theorem Cached.length_le {snapshots witnesses}
    (cached : Cached context snapshots d hash key witnesses)
    : witnesses.length ≤ cacheSize context snapshots.length d := by
  have short := cached.covers.length_le
  have upper := cached.upper
  rw [cacheSize]
  omega

theorem sizeFits_cacheSize {length size} (fits : size ≤ cacheSize context length d)
    : sizeFits (cacheSize context length d) size := by
  have small := context.small
  have bound : cacheSize context length d ≤ context.maxReorgLength + 1 :=
    (min_le_left _ _).trans (sub_le _ _)
  rw [sizeFits]
  omega

section

variable {snapshots : List Outputs} {witnesses : List (IncrementalWitness Uint256)}
  (cached : Cached context (outputs :: snapshots) d hash key witnesses)
include cached

/-- A note that has been mined in the current chain has a witness. -/
theorem Cached.pos (near : d ≤ context.maxReorgLength) (mined : Mined outputs hash key)
    : 0 < witnesses.length := by
  refine cached.lower 0 outputs rfl mined ?_
  rw [Context.witnessCacheSize]
  omega

/-- A note that has not been mined has none. -/
theorem Cached.eq_nil (unmined : ¬ Mined outputs hash key)
    : witnesses = [] := by
  cases cached.covers with
  | nil => rfl
  | cons first => exact absurd first.mined unmined

end

variable {nd : NoteData}

section

variable (kept : Kept context chain d hash key nd)
include kept

theorem Kept.behind : nd.witnessHeight < chain.length := by
  have height := kept.height
  omega

theorem Kept.fits
    : sizeFits (cacheSize context chain.length d) nd.witnesses.length := by
  have bound := kept.cached.length_le
  rw [length_history] at bound
  exact sizeFits_cacheSize bound

section

variable (near : d ≤ context.maxReorgLength)
include near

theorem Kept.pos (mined : Mined (chainOutputs chain) hash key)
    : 0 < nd.witnesses.length := by
  cases chain with
  | nil => exact absurd mined.2 not_mem_nil
  | cons block below => exact kept.cached.pos near mined

/-- The witness of the last block is copied for the new one, and one that is too old is dropped. -/
theorem Kept.copyFront
    : Cached context (chainOutputs chain :: history chain) (d - 1) hash key
        (NoteData.copyFront context.witnessCacheSize nd.witnesses) := by
  have pos := kept.pos near
  obtain ⟨⟨covers, upper, lower⟩, -⟩ := kept
  obtain ⟨witnesses, height⟩ := nd
  cases witnesses with
  | nil =>
    refine ⟨.nil _, ?_, fun i outputs found mined _ => ?_⟩
    · have bound : d ≤ context.witnessCacheSize := near.trans (le_succ _)
      exact (zero_add _).trans_le ((sub_le d 1).trans bound)
    · cases i with
      | zero =>
        cases found
        exact absurd (pos mined) (lt_irrefl 0)
      | succ i => exact absurd (pos (mined_of_history found mined)) (lt_irrefl 0)
  | cons front rest =>
    cases chain with
    | nil => cases covers
    | cons block below =>
      have doubled : Covers (Witnessed context hash key)
          (chainOutputs (block :: below) :: history (block :: below)) (front :: front :: rest) := by
        cases covers with
        | cons first older => exact .cons first (.cons first older)
      simp only [length_cons] at upper lower
      rw [NoteData.copyFront]
      split
      next long =>
        simp only [length_cons] at long
        refine ⟨doubled.dropLast, ?_, fun i outputs found mined within => ?_⟩
        · simp only [length_dropLast, length_cons]
          omega
        · simp only [length_dropLast, length_cons]
          omega
      next short =>
        simp only [length_cons] at short
        refine ⟨doubled, ?_, fun i outputs found mined within => ?_⟩
        · simp only [length_cons]
          omega
        simp only [length_cons]
        cases i with
        | zero => omega
        | succ i =>
          have before := lower i outputs found mined (by omega)
          omega

theorem Kept.copy
    : ∃ nd', nd.copyPreviousWitness context.witnessCacheSize chain.length
          (cacheSize context chain.length d) = .ok nd'
      ∧ Growing context chain (chainOutputs chain) (d - 1) hash key nd' := by
  refine ⟨{ nd with witnesses := NoteData.copyFront context.witnessCacheSize nd.witnesses }, ?_,
    ⟨kept.copyFront near, kept.behind⟩⟩
  rw [NoteData.copyPreviousWitness, if_pos kept.behind]
  exact bind_ok.mpr ⟨(), assertThat_ok.mpr kept.fits,
    bind_ok.mpr ⟨(), assertThat_ok.mpr kept.height, rfl⟩⟩

end

end

/-- An output of the block goes to the witness of a note that is not its own. -/
theorem Growing.append (growing : Growing context chain outputs d hash key nd)
    (notOwn : ¬ (hash = other.hash ∧ key = other))
    (room : (outputs.commitments other.pool).length < 2 ^ other.pool.depth)
    : ∃ nd', inPool other.pool (NoteData.appendNoteCommitment (context.hash other.pool)
          other.pool.depth chain.length (cacheSize context (chain.length + 1) d) commitment) key nd
        = .ok nd'
      ∧ Growing context chain (outputs ++ [(other, commitment)]) d hash key nd' := by
  have mined : Mined (outputs ++ [(other, commitment)]) hash key → Mined outputs hash key := by
    simp only [Mined, map_append, mem_append, map_cons, map_nil, mem_singleton]
    rintro ⟨own, before | rfl⟩
    · exact ⟨own, before⟩
    · exact absurd ⟨own.symm, rfl⟩ notOwn
  have fits := sizeFits_cacheSize growing.cached.length_le
  obtain ⟨⟨covers, upper, lower⟩, behind⟩ := growing
  have lowerNow : ∀ i snapshot,
      ((outputs ++ [(other, commitment)]) :: history chain)[i]? = some snapshot
      → Mined snapshot hash key → i + d < context.witnessCacheSize → i < nd.witnesses.length := by
    intro i snapshot found isMined within
    cases i with
    | zero =>
      cases found
      exact lower 0 outputs rfl (mined isMined) within
    | succ i => exact lower (i + 1) snapshot found isMined within
  rw [length_cons, length_history] at fits
  by_cases same : key.pool = other.pool
  · rw [inPool, if_pos same]
    obtain ⟨witnesses, height⟩ := nd
    cases covers with
    | nil => exact ⟨_, rfl, ⟨.nil _, upper, lowerNow⟩, behind⟩
    | @cons _ front _ rest first older =>
      rw [← same] at room ⊢
      obtain ⟨next, run, witnessed⟩ := first.append same.symm room
      refine ⟨⟨next :: rest, height⟩, ?_, ⟨.cons witnessed older, upper, lowerNow⟩, behind⟩
      simp only [NoteData.appendNoteCommitment, if_pos behind]
      exact bind_ok.mpr ⟨(), assertThat_ok.mpr fits, bind_ok.mpr ⟨next, run, rfl⟩⟩
  · rw [inPool, if_neg same]
    exact ⟨nd, rfl, ⟨covers.replace fun _ first => first.skip fun equal => same equal.symm, upper,
      lowerNow⟩, behind⟩

section

variable (growing : Growing context chain outputs d other.hash other nd)
include growing

/-- It is witnessed then. -/
theorem Growing.witnessOwn (near : d ≤ context.maxReorgLength)
    (unmined : other ∉ outputs.map Prod.fst)
    (below : ∀ key ∈ (chainOutputs chain).map Prod.fst, key ∈ outputs.map Prod.fst)
    (run : IncrementalMerkleTree.appendAll (context.hash other.pool) other.pool.depth {}
      ((outputs ++ [(other, commitment)] : Outputs).commitments other.pool) = .ok tree)
    : ∃ nd', nd.witnessNote chain.length (cacheSize context (chain.length + 1) d) tree.witness
        = .ok nd'
      ∧ Growing context chain (outputs ++ [(other, commitment)]) d other.hash other nd' := by
  have size : [tree.witness].length + d ≤ context.witnessCacheSize :=
    (add_comm 1 d).trans_le (succ_le_succ near)
  have cached : Cached context ((outputs ++ [(other, commitment)]) :: history chain) d other.hash
      other [tree.witness] := by
    refine ⟨.cons (witnessed_last run) (.nil _), size, fun i snapshot found mined _ => ?_⟩
    cases i with
    | zero => exact zero_lt_one
    | succ i => exact absurd (below other (mined_of_history found mined).2) unmined
  have fits := sizeFits_cacheSize cached.length_le
  have length : ((outputs ++ [(other, commitment)]) :: history chain).length = chain.length + 1 :=
    congrArg succ (length_history chain)
  rw [length] at fits
  refine ⟨⟨[tree.witness], chain.length - 1⟩, ?_, cached, Int.sub_one_lt_of_le (le_refl _)⟩
  rw [NoteData.witnessNote, if_pos growing.behind]
  exact bind_ok.mpr ⟨(), assertThat_ok.mpr fits, rfl⟩

end

/-- After all outputs of the block. -/
theorem Growing.update {block}
    (growing : Growing context chain (chainOutputs (block :: chain)) d hash key nd)
    : ∃ nd', nd.updateWitnessHeight chain.length (cacheSize context (chain.length + 1) d) = .ok nd'
      ∧ Kept context (block :: chain) d hash key nd' := by
  have fits := sizeFits_cacheSize growing.cached.length_le
  rw [length_cons, length_history] at fits
  refine ⟨{ nd with witnessHeight := chain.length }, ?_, growing.cached, .inr ?_⟩
  · rw [NoteData.updateWitnessHeight, if_pos growing.behind]
    exact bind_ok.mpr ⟨(), assertThat_ok.mpr fits, rfl⟩
  · simp

/-- The witness for the tip is dropped. -/
theorem Kept.decrement {block} (kept : Kept context (block :: chain) d hash key nd)
    (near : d + 1 ≤ context.maxReorgLength)
    : ∃ nd', nd.decrementNoteWitness chain.length (cacheSize context (chain.length + 1) d) = .ok nd'
      ∧ Kept context chain (d + 1) hash key nd' := by
  have fits := kept.fits
  have behind := kept.behind
  obtain ⟨⟨covers, upper, lower⟩, height⟩ := kept
  rw [length_cons] at fits behind height
  have cached : Cached context (history chain) (d + 1) hash key nd.witnesses.tail := by
    refine ⟨covers.tail, ?_, fun i outputs found mined within => ?_⟩
    · rw [length_tail, Context.witnessCacheSize]
      rw [Context.witnessCacheSize] at upper
      omega
    · have before := lower (i + 1) outputs found mined (by omega)
      rw [length_tail]
      omega
  have fitsThen := sizeFits_cacheSize cached.length_le
  have less : ((cacheSize context (chain.length + 1) d : Nat) : Int) - 1
      = (cacheSize context (history chain).length (d + 1) : Nat) := by
    rw [cacheSize, cacheSize, length_history, Context.witnessCacheSize]
    omega
  refine ⟨⟨nd.witnesses.tail, chain.length - 1⟩, ?_, cached, .inr rfl⟩
  rw [NoteData.decrementNoteWitness, if_pos (by omega)]
  refine bind_ok.mpr ⟨⟨nd.witnesses.tail, chain.length - 1⟩, ?_, ?_⟩
  · exact bind_ok.mpr ⟨(), assertThat_ok.mpr fits,
      bind_ok.mpr ⟨(), assertThat_ok.mpr (by omega), rfl⟩⟩
  · refine bind_ok.mpr ⟨(), assertThat_ok.mpr fun _ => ?_, rfl⟩
    rw [less]
    exact fitsThen

/-- A note that is new to the wallet. -/
theorem kept_new (near : d ≤ context.maxReorgLength)
    (unmined : ¬ Mined (chainOutputs chain) hash key)
    : Kept context chain d hash key {} := by
  refine ⟨⟨.nil _, ?_, fun i outputs found mined _ => ?_⟩, .inl rfl⟩
  · exact (zero_add d).trans_le (near.trans (le_succ _))
  · exact absurd (mined_of_history found mined) unmined

end Resistance.Wallet.NoteCache

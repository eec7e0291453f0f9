import Mathlib.Data.List.Nodup
import Mathlib.Data.Set.Insert

/-! Ledgers of unspent outputs and revealed nullifiers. A transaction spends unspent outputs,
reveals new nullifiers and leaves outputs under its id, which may have been used before: an
output is consumed together with the transaction that created it, and never twice.
-/

namespace Resistance.Lib.UtxoLedger

open List

variable {Id Output Nullifier : Type}

structure Tx (Id Output Nullifier : Type) where
  id : Id
  inputs : List (Id × Nat)
  outputs : Nat → Option Output
  nullifiers : List Nullifier

@[ext]
structure Ledger (Id Output Nullifier : Type) where
  utxo : Id → Nat → Option Output
  revealed : Set Nullifier

/-- A transaction may be added to a ledger. -/
structure Ledger.Accepts (ledger : Ledger Id Output Nullifier) (tx : Tx Id Output Nullifier)
    : Prop where
  distinct : tx.inputs.Nodup
  unspent : ∀ input ∈ tx.inputs, ledger.utxo input.1 input.2 ≠ none
  distinctNullifiers : tx.nullifiers.Nodup
  unrevealed : ∀ nf ∈ tx.nullifiers, nf ∉ ledger.revealed

variable [DecidableEq Id]

def Ledger.apply (ledger : Ledger Id Output Nullifier) (tx : Tx Id Output Nullifier)
    : Ledger Id Output Nullifier where
  utxo id n :=
    if id = tx.id then tx.outputs n
    else if (id, n) ∈ tx.inputs then none
    else ledger.utxo id n
  revealed := ledger.revealed ∪ { nf | nf ∈ tx.nullifiers }

/-- The ledger without outputs and nullifiers. -/
def Ledger.empty : Ledger Id Output Nullifier := ⟨fun _ _ => none, ∅⟩

/-- The ledger after a history of transactions, the last one first. -/
def run (start : Ledger Id Output Nullifier)
    : List (Tx Id Output Nullifier) → Ledger Id Output Nullifier
  | [] => start
  | tx :: txs => (run start txs).apply tx

/-- Every transaction of the history was accepted. -/
inductive Valid (start : Ledger Id Output Nullifier) : List (Tx Id Output Nullifier) → Prop
  | nil : Valid start []
  | cons {tx txs} (earlier : Valid start txs) (accepts : (run start txs).Accepts tx)
    : Valid start (tx :: txs)

variable {start : Ledger Id Output Nullifier} {txs : List (Tx Id Output Nullifier)}

theorem Valid.of_append {later} (valid : Valid start (later ++ txs))
    : Valid start txs := by
  induction later with
  | nil => exact valid
  | cons tx later ih =>
    cases valid with
    | cons earlier _ => exact ih earlier

/-- Unspent outputs were there at the start or are outputs of transactions. -/
theorem exists_of_utxo_run {id n output} (unspent : (run start txs).utxo id n = some output)
    : start.utxo id n = some output ∨ ∃ tx ∈ txs, tx.id = id ∧ tx.outputs n = some output := by
  induction txs with
  | nil => exact .inl unspent
  | cons tx txs ih =>
    simp only [run, Ledger.apply] at unspent
    split at unspent
    · next same => exact .inr ⟨tx, mem_cons_self, same.symm, unspent⟩
    split at unspent
    · cases unspent
    · rcases ih unspent with old | ⟨creator, mem, created⟩
      · exact .inl old
      · exact .inr ⟨creator, mem_cons_of_mem _ mem, created⟩

/-- The place in the history of the last transaction with an id, counted from the first
transaction; zero if there is none.
-/
def creator (id : Id) (txs : List (Tx Id Output Nullifier)) : Nat :=
  (txs.dropWhile (·.id ≠ id)).length

/-- The outputs that a history has consumed, with the places of their creators. -/
def consumed : List (Tx Id Output Nullifier) → List ((Id × Nat) × Nat)
  | [] => []
  | tx :: txs => tx.inputs.map (fun input => (input, creator input.1 txs)) ++ consumed txs

/-- What has been consumed is spent, unless its id was used again. -/
theorem spent_of_mem_consumed {input place} (mem : (input, place) ∈ consumed txs)
    : place ≤ txs.length
      ∧ ((run start txs).utxo input.1 input.2 = none ∨ place < creator input.1 txs) := by
  induction txs with
  | nil => cases mem
  | cons tx txs ih =>
    -- an input of `tx` is spent by it, an older one is known from the induction
    have known : place ≤ txs.length
        ∧ (input ∈ tx.inputs ∨ (run start txs).utxo input.1 input.2 = none
          ∨ place < creator input.1 txs) := by
      rcases mem_append.mp mem with here | older
      · obtain ⟨_, listed, same⟩ := mem_map.mp here
        obtain ⟨rfl, rfl⟩ := Prod.mk.inj same
        exact ⟨(dropWhile_suffix _).length_le, .inl listed⟩
      · exact ⟨(ih older).1, .inr (ih older).2⟩
    obtain ⟨bound, state⟩ := known
    refine ⟨Nat.le_succ_of_le bound, ?_⟩
    by_cases again : input.1 = tx.id
    · right
      simpa [again, creator] using Nat.lt_succ_of_le bound
    have earlier : creator input.1 (tx :: txs) = creator input.1 txs := by
      simp [creator, Ne.symm again]
    simp only [earlier, run, Ledger.apply, if_neg again]
    rcases state with listed | spent | recreated
    · exact .inl (if_pos listed)
    · exact .inl (by rw [spent, ite_self])
    · exact .inr recreated

/-- No output of a transaction is consumed twice. -/
theorem Valid.consumed_nodup (valid : Valid start txs) : (consumed txs).Nodup := by
  induction valid with
  | nil => exact nodup_nil
  | @cons tx txs _ accepts ih =>
    refine nodup_append'.mpr ⟨accepts.distinct.map fun _ _ same => (Prod.mk.inj same).1, ih, ?_⟩
    rintro ⟨input, place⟩ here older
    obtain ⟨_, listed, same⟩ := mem_map.mp here
    obtain ⟨rfl, rfl⟩ := Prod.mk.inj same
    rcases (spent_of_mem_consumed older).2 with spent | recreated
    · exact accepts.unspent _ listed spent
    · exact Nat.lt_irrefl _ recreated

theorem mem_revealed_run {nf} (mem : nf ∈ txs.flatMap Tx.nullifiers)
    : nf ∈ (run start txs).revealed := by
  induction txs with
  | nil => cases mem
  | cons tx txs ih =>
    rcases mem_append.mp (flatMap_cons ▸ mem) with here | older
    · exact .inr here
    · exact .inl (ih older)

/-- No nullifier is revealed twice. -/
theorem Valid.nullifiers_nodup (valid : Valid start txs) : (txs.flatMap Tx.nullifiers).Nodup := by
  induction valid with
  | nil => exact nodup_nil
  | cons _ accepts ih =>
    rw [flatMap_cons]
    refine nodup_append'.mpr ⟨accepts.distinctNullifiers, ih, ?_⟩
    intro nf here older
    exact accepts.unrevealed nf here (mem_revealed_run older)

/-- If every id is used once, inputs stay spent. -/
theorem Valid.spent_of_nodup (valid : Valid start txs) (ids : (txs.map Tx.id).Nodup)
    (unused : ∀ tx ∈ txs, ∀ n, start.utxo tx.id n = none) {tx} (mem : tx ∈ txs) {input}
    (listed : input ∈ tx.inputs)
    : (run start txs).utxo input.1 input.2 = none
      ∧ (start.utxo input.1 input.2 ≠ none ∨ input.1 ∈ txs.map Tx.id) := by
  induction valid with
  | nil => cases mem
  | @cons last txs earlier accepts ih =>
    obtain ⟨fresh, ids⟩ := nodup_cons.mp ids
    rw [forall_mem_cons] at unused
    -- what was spent before the last transaction is not among its outputs
    have other : start.utxo input.1 input.2 ≠ none ∨ input.1 ∈ txs.map Tx.id →
        input.1 ≠ last.id := by
      rintro (old | used) same
      · exact old (same ▸ unused.1 input.2)
      · exact fresh (same ▸ used)
    have weaken : start.utxo input.1 input.2 ≠ none ∨ input.1 ∈ txs.map Tx.id →
        start.utxo input.1 input.2 ≠ none ∨ input.1 ∈ (last :: txs).map Tx.id :=
      Or.imp_right (mem_cons_of_mem _)
    simp only [run, Ledger.apply]
    rcases mem_cons.mp mem with rfl | below
    · obtain ⟨output, there⟩ := Option.ne_none_iff_exists'.mp (accepts.unspent input listed)
      have known : start.utxo input.1 input.2 ≠ none ∨ input.1 ∈ txs.map Tx.id := by
        rcases exists_of_utxo_run there with old | ⟨creator, created, same, _⟩
        · exact .inl (Option.ne_none_iff_exists'.mpr ⟨output, old⟩)
        · exact .inr (mem_map.mpr ⟨creator, created, same⟩)
      rw [if_neg (other known), if_pos listed]
      exact ⟨rfl, weaken known⟩
    · obtain ⟨spent, known⟩ := ih ids unused.2 below
      rw [if_neg (other known), spent, ite_self]
      exact ⟨rfl, weaken known⟩

/-- Transactions that spend or reveal something have ids of their own, if no two different
ones share an id.
-/
theorem Valid.ids_nodup (valid : Valid start txs)
    (unused : ∀ tx ∈ txs, ∀ n, start.utxo tx.id n = none)
    (noCollision : ∀ a ∈ txs, ∀ b ∈ txs, a.id = b.id → a = b)
    (funded : ∀ tx ∈ txs, tx.inputs ≠ [] ∨ tx.nullifiers ≠ [])
    : (txs.map Tx.id).Nodup := by
  induction valid with
  | nil => exact nodup_nil
  | @cons tx txs earlier accepts ih =>
    simp only [forall_mem_cons] at unused funded
    have ids := ih unused.2
      (fun a memberA b memberB => noCollision a (mem_cons_of_mem _ memberA) b
        (mem_cons_of_mem _ memberB)) funded.2
    refine nodup_cons.mpr ⟨fun used => ?_, ids⟩
    obtain ⟨other, mem, same⟩ := mem_map.mp used
    obtain rfl := noCollision other (mem_cons_of_mem _ mem) tx mem_cons_self same
    rcases funded.1 with inputs | nullifiers
    · obtain ⟨input, listed⟩ := exists_mem_of_ne_nil _ inputs
      exact accepts.unspent input listed
        (earlier.spent_of_nodup ids unused.2 mem listed).1
    · obtain ⟨nf, listed⟩ := exists_mem_of_ne_nil _ nullifiers
      exact accepts.unrevealed nf listed
        (mem_revealed_run (mem_flatMap.mpr ⟨other, mem, listed⟩))

end Resistance.Lib.UtxoLedger

import Resistance.Lib.FiniteMap
import Resistance.Primitives.WireFormat

/-! The orphan transactions of `main.cpp`: a map of them, and an index by the transactions that
they spend from, which is exact after every run.
-/

namespace Resistance.Net

open List Primitives Lib AList FiniteMap

structure COrphanTx where
  tx : CTransaction
  fromPeer : Int

/-- The orphans that spend from a transaction, if the index has a set of them. -/
abbrev Hashes := Option (Finset Uint256)

/-- `mapOrphanTransactionsByPrev`. -/
abbrev ByPrev := FiniteMap Uint256 (Finset Uint256)

structure Orphans where
  mapOrphanTransactions : FiniteMap Uint256 COrphanTx := ∅
  mapOrphanTransactionsByPrev : ByPrev := ∅

/-- A loop over the inputs of an orphan that changes the set of each previous transaction. -/
def overInputs (change : Hashes → Hashes) (byPrev : ByPrev) (vin : List CTxIn) : ByPrev :=
  vin.foldl (fun byPrev txin =>
    put byPrev txin.prevout.hash (change (byPrev.lookup txin.prevout.hash))) byPrev

/-- A hash is inserted into a set, which `operator[]` makes if there is none. -/
def listed (hash : Uint256) (hashes : Hashes) : Hashes := some (insert hash (hashes.getD ∅))

/-- A hash is erased from a set, and an empty set from the index. -/
def unlisted (hash : Uint256) (hashes : Hashes) : Hashes :=
  hashes.bind fun hashes => if hashes.erase hash = ∅ then none else some (hashes.erase hash)

namespace Orphans

/-- The result, or what is thrown, and the maps. -/
def addOrphanTx (tx : CTransaction) (peer : Int) (orphans : Orphans)
    : Except String Bool × Orphans :=
  if tx.getHash ∈ orphans.mapOrphanTransactions then (.ok false, orphans)
  else match tx.getSerializeSize with
    | .error e => (.error e, orphans)
    | .ok sz =>
      -- Ignore big transactions, to avoid a send-big-orphans memory exhaustion attack.
      if sz % 2 ^ 32 > 5000 then (.ok false, orphans)
      else (.ok true, {
        mapOrphanTransactions := orphans.mapOrphanTransactions.insert tx.getHash ⟨tx, peer⟩
        mapOrphanTransactionsByPrev :=
          overInputs (listed tx.getHash) orphans.mapOrphanTransactionsByPrev tx.vin })

def eraseOrphanTx (orphans : Orphans) (hash : Uint256) : Orphans :=
  match orphans.mapOrphanTransactions.lookup hash with
  | none => orphans
  | some it => {
      mapOrphanTransactions := orphans.mapOrphanTransactions.erase hash
      mapOrphanTransactionsByPrev :=
        overInputs (unlisted hash) orphans.mapOrphanTransactionsByPrev it.tx.vin }

/-- One round of `EraseOrphansFor`. -/
def eraseIfFrom (peer : Int) (orphans : Orphans) (maybeErase : Σ _ : Uint256, COrphanTx)
    : Orphans :=
  if maybeErase.2.fromPeer = peer then orphans.eraseOrphanTx maybeErase.2.tx.getHash else orphans

/-- The iterator has moved on before an entry is erased. -/
def eraseOrphansFor (peer : Int) (orphans : Orphans) : Orphans :=
  orphans.mapOrphanTransactions.entries.foldl (eraseIfFrom peer) orphans

def size (orphans : Orphans) : Nat := orphans.mapOrphanTransactions.keys.length

/-- `lower_bound`, or else `begin`, in the order of the bytes. -/
def lowerBound (orphans : Orphans) (randomhash : Uint256) : Uint256 :=
  let keys := orphans.mapOrphanTransactions.keys.mergeSort fun a b => a.toList ≤ b.toList
  (keys.find? fun key => ¬ key.toList < randomhash.toList).getD (keys.headD .null)

theorem eraseOrphanTx_size {orphans : Orphans} {it} (mem : it ∈ orphans.mapOrphanTransactions)
    : (orphans.eraseOrphanTx it).size < orphans.size := by
  obtain ⟨orphan, isThere⟩ := Option.isSome_iff_exists.mp (lookup_isSome.mpr mem)
  have some := length_pos_of_mem mem
  simp only [size, eraseOrphanTx, isThere, keys_erase, length_erase_of_mem mem]
  exact Nat.sub_one_lt some.ne'

theorem lowerBound_mem {orphans : Orphans} (randomhash : Uint256) (some : 0 < orphans.size)
    : orphans.lowerBound randomhash ∈ orphans.mapOrphanTransactions := by
  rw [lowerBound]
  have same := mergeSort_perm orphans.mapOrphanTransactions.keys fun a b => a.toList ≤ b.toList
  generalize orphans.mapOrphanTransactions.keys.mergeSort _ = keys at same
  refine same.subset ?_
  cases found : keys.find? fun key => ¬ key.toList < randomhash.toList with
  | some it => exact mem_of_find?_eq_some found
  | none =>
    cases keys with
    | nil => exact absurd same.length_eq some.ne
    | cons first rest => exact mem_cons_self

/-- The loop of `LimitOrphanTxSize`. -/
def limitLoop (nMaxOrphans : Nat) (getRandHash : Nat → Uint256) (nEvicted : UInt32)
    (orphans : Orphans)
    : UInt32 × Orphans :=
  if more : orphans.size > nMaxOrphans then
    limitLoop nMaxOrphans getRandHash (nEvicted + 1)
      (orphans.eraseOrphanTx (orphans.lowerBound (getRandHash orphans.size)))
  else (nEvicted, orphans)
termination_by orphans.size
decreasing_by exact eraseOrphanTx_size (lowerBound_mem _ (Nat.zero_lt_of_lt more))

def limitOrphanTxSize (nMaxOrphans : Nat) (getRandHash : Nat → Uint256) (orphans : Orphans)
    : UInt32 × Orphans :=
  limitLoop nMaxOrphans getRandHash 0 orphans

inductive Call where
  | addOrphanTx (tx : CTransaction) (peer : Int)
  | eraseOrphanTx (hash : Uint256)
  | eraseOrphansFor (peer : Int)
  | limitOrphanTxSize (nMaxOrphans : Nat) (getRandHash : Nat → Uint256)

def call (orphans : Orphans) : Call → Orphans
  | .addOrphanTx tx peer => (orphans.addOrphanTx tx peer).2
  | .eraseOrphanTx hash => orphans.eraseOrphanTx hash
  | .eraseOrphansFor peer => orphans.eraseOrphansFor peer
  | .limitOrphanTxSize nMaxOrphans getRandHash =>
    (orphans.limitOrphanTxSize nMaxOrphans getRandHash).2

end Orphans

/-- Whether one of the inputs spends from a transaction. -/
abbrev SpendsFrom (vin : List CTxIn) (prev : Uint256) : Prop :=
  ∃ txin ∈ vin, txin.prevout.hash = prev

abbrev Orphans.Stored (orphans : Orphans) (hash : Uint256) (orphan : COrphanTx) : Prop :=
  orphans.mapOrphanTransactions.lookup hash = some orphan

/-- A hash is stored, and the orphan spends from a transaction. -/
def Orphans.Waits (orphans : Orphans) (prev hash : Uint256) : Prop :=
  ∃ orphan, orphans.Stored hash orphan ∧ SpendsFrom orphan.tx.vin prev

/-- A set of the index has these elements, and is left out if there are none. -/
def Lists (hashes : Hashes) (elements : Uint256 → Prop) : Prop :=
  hashes ≠ some ∅ ∧ ∀ hash, hash ∈ hashes.getD ∅ ↔ elements hash

/-- The index lists the orphans that are stored. -/
structure Orphans.Consistent (orphans : Orphans) : Prop where
  keyed : ∀ hash orphan, orphans.Stored hash orphan → orphan.tx.getHash = hash
  lists : ∀ prev, Lists (orphans.mapOrphanTransactionsByPrev.lookup prev) (orphans.Waits prev)

variable {hashes : Hashes} {elements : Uint256 → Prop} {hash prev : Uint256} {orphans : Orphans}
  {peer : Int} {orphan : COrphanTx}

theorem Lists.listed (lists : Lists hashes elements)
    : Lists (listed hash hashes) fun h => h ≠ hash → elements h := by
  simp [Net.listed, Lists, lists.2, or_iff_not_imp_left]

theorem Lists.without (lists : Lists hashes elements) (outside : ¬ elements hash)
    : Lists hashes fun h => h ≠ hash ∧ elements h := by
  refine ⟨lists.1, fun h => (lists.2 h).trans ⟨fun inside => ⟨?_, inside⟩, And.right⟩⟩
  rintro rfl
  exact outside inside

theorem Lists.unlisted (lists : Lists hashes elements)
    : Lists (unlisted hash hashes) fun h => h ≠ hash ∧ elements h := by
  cases hashes with
  | none => exact lists.without ((lists.2 hash).not.mp (by simp))
  | some hashes =>
    have erased : ∀ h, h ∈ hashes.erase hash ↔ h ≠ hash ∧ elements h := by
      simp [← lists.2]
    simp only [Net.unlisted, Option.bind_some, Lists, ← erased]
    split <;> simp [*]

theorem unlisted_idempotent (hashes : Hashes)
    : unlisted hash (unlisted hash hashes) = unlisted hash hashes := by
  cases hashes with
  | none => rfl
  | some hashes =>
    simp only [unlisted, Option.bind_some]
    split <;> simp [*]

/-- A previous transaction that occurs several times changes as if it occurred once. -/
theorem lookup_overInputs {change} (idempotent : ∀ hashes, change (change hashes) = change hashes)
    (byPrev : ByPrev) (vin : List CTxIn)
    : (overInputs change byPrev vin).lookup prev
      = if SpendsFrom vin prev then change (byPrev.lookup prev) else byPrev.lookup prev := by
  induction vin generalizing byPrev with
  | nil => simp [overInputs]
  | cons txin vin ih =>
    simp only [overInputs, foldl_cons] at ih ⊢
    rw [ih, lookup_put]
    by_cases same : prev = txin.prevout.hash
    · subst same
      simp [idempotent]
    · simp [SpendsFrom, same, Ne.symm same]

namespace Orphans

theorem stored_of_erase {h} (stored : (orphans.eraseOrphanTx hash).Stored h orphan)
    : h ≠ hash ∧ orphans.Stored h orphan := by
  rw [eraseOrphanTx] at stored
  split at stored
  next absent =>
    refine ⟨?_, stored⟩
    rintro rfl
    cases absent.symm.trans stored
  next =>
    have same := lookup_put orphans.mapOrphanTransactions hash none h
    simpa using same.symm.trans stored

/-- An orphan that is left by some rounds of `EraseOrphansFor` is none that they have erased. -/
theorem stored_of_rounds {visited : List (Σ _ : Uint256, COrphanTx)}
    (stored : (visited.foldl (eraseIfFrom peer) orphans).Stored hash orphan)
    : orphans.Stored hash orphan
      ∧ ∀ entry ∈ visited, entry.2.fromPeer = peer → hash ≠ entry.2.tx.getHash := by
  induction visited generalizing orphans with
  | nil => exact ⟨stored, nofun⟩
  | cons entry visited ih =>
    obtain ⟨now, later⟩ := ih stored
    rw [eraseIfFrom] at now
    split at now
    next =>
      obtain ⟨ne, before⟩ := stored_of_erase now
      exact ⟨before, forall_mem_cons.mpr ⟨fun _ => ne, later⟩⟩
    next other => exact ⟨now, forall_mem_cons.mpr ⟨fun isPeer => absurd isPeer other, later⟩⟩

namespace Consistent

variable (consistent : Consistent orphans)
include consistent

/-- The entry of one hash changes, and with it the lists that hold the hash. -/
theorem put (new : Option COrphanTx) {byPrev}
    (keyed : ∀ orphan, new = some orphan → orphan.tx.getHash = hash)
    (lists : ∀ prev, Lists (byPrev.lookup prev) fun h => if h = hash then
      ∃ orphan, new = some orphan ∧ SpendsFrom orphan.tx.vin prev else orphans.Waits prev h)
    : Consistent ⟨FiniteMap.put orphans.mapOrphanTransactions hash new, byPrev⟩ := by
  refine ⟨fun h orphan stored => ?_, fun prev => ?_⟩
  · rw [Stored, lookup_put] at stored
    split at stored
    next same => exact (keyed orphan stored).trans same.symm
    next => exact consistent.keyed h orphan stored
  · convert lists prev using 2 with h
    simp only [Waits, Stored, lookup_put]
    split <;> rfl

theorem addOrphanTx (tx : CTransaction) (peer : Int)
    : Consistent (orphans.addOrphanTx tx peer).2 := by
  rw [Orphans.addOrphanTx]
  split
  next => exact consistent
  next absent =>
    split
    next => exact consistent
    next =>
      split
      next => exact consistent
      next =>
        refine consistent.put (some ⟨tx, peer⟩) (by rintro _ ⟨⟩; rfl) fun prev => ?_
        rw [lookup_overInputs (by simp [listed])]
        split
        next spends => simpa [spends] using (consistent.lists prev).listed
        next other =>
          have outside : ¬ orphans.Waits prev tx.getHash := by
            simp [Waits, lookup_eq_none.mpr absent]
          simpa [other] using (consistent.lists prev).without outside

theorem eraseOrphanTx (hash : Uint256)
    : Consistent (orphans.eraseOrphanTx hash) := by
  rw [Orphans.eraseOrphanTx]
  split
  next => exact consistent
  next it found =>
    refine consistent.put none nofun fun prev => ?_
    rw [lookup_overInputs unlisted_idempotent]
    split
    next => simpa using (consistent.lists prev).unlisted
    next other =>
      have outside : ¬ orphans.Waits prev hash := by simpa [Waits, Stored, found] using other
      simpa using (consistent.lists prev).without outside

theorem eraseOrphansFor (peer : Int)
    : Consistent (orphans.eraseOrphansFor peer) := by
  refine foldlRecOn _ _ consistent fun now still maybeErase _ => ?_
  rw [eraseIfFrom]
  split
  · exact still.eraseOrphanTx _
  · exact still

theorem fromPeer_of_eraseOrphansFor (stored : (orphans.eraseOrphansFor peer).Stored hash orphan)
    : orphan.fromPeer ≠ peer := by
  intro isPeer
  obtain ⟨before, erased⟩ := stored_of_rounds stored
  exact erased _ (mem_lookup_iff.mp before) isPeer (consistent.keyed hash orphan before).symm

theorem limitLoop (nMaxOrphans : Nat) (getRandHash : Nat → Uint256) (nEvicted : UInt32)
    : Consistent (limitLoop nMaxOrphans getRandHash nEvicted orphans).2
      ∧ (limitLoop nMaxOrphans getRandHash nEvicted orphans).2.size ≤ nMaxOrphans := by
  fun_induction Orphans.limitLoop nMaxOrphans getRandHash nEvicted orphans with
  | case1 nEvicted orphans more ih => exact ih (consistent.eraseOrphanTx _)
  | case2 nEvicted orphans few => exact ⟨consistent, Nat.le_of_not_lt few⟩

theorem call (next : Call)
    : Consistent (orphans.call next) := by
  cases next with
  | addOrphanTx tx peer => exact consistent.addOrphanTx tx peer
  | eraseOrphanTx hash => exact consistent.eraseOrphanTx hash
  | eraseOrphansFor peer => exact consistent.eraseOrphansFor peer
  | limitOrphanTxSize nMaxOrphans getRandHash =>
    exact (consistent.limitLoop nMaxOrphans getRandHash 0).1

end Consistent

/-- After every run the index is exact: a previous transaction has a set if and only if an
orphan that is stored spends from it, and the set holds these orphans. The next `EraseOrphansFor`
leaves no orphan of the peer, and the next `LimitOrphanTxSize` at most as many orphans as it is
given.
-/
theorem calls_consistent (calls : List Call)
    : let orphans := calls.foldl call {}
      orphans.Consistent
      ∧ (∀ peer hash orphan, (orphans.eraseOrphansFor peer).Stored hash orphan
        → orphan.fromPeer ≠ peer)
      ∧ ∀ nMaxOrphans getRandHash,
        (orphans.limitOrphanTxSize nMaxOrphans getRandHash).2.size ≤ nMaxOrphans := by
  have start : Consistent {} := ⟨by simp, by simp [Lists, Waits]⟩
  have consistent : Consistent (calls.foldl call {}) :=
    foldlRecOn calls call start fun _ before next _ => before.call next
  exact ⟨consistent, fun _ _ _ stored => consistent.fromPeer_of_eraseOrphansFor stored,
    fun nMaxOrphans getRandHash => (consistent.limitLoop nMaxOrphans getRandHash 0).2⟩

end Orphans

end Resistance.Net

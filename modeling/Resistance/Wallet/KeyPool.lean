import Mathlib.Order.Lattice.Nat
import Resistance.Lib.Checks

/-! The key pool of the wallet and the holders of keys that are reserved from it. -/

namespace Resistance.Wallet

open Lib.Checks

/-- The key pool; keys are numbered in the order in which they are generated. -/
structure KeyPool where
  setKeyPool : Finset Nat := ∅
  /-- The pool records of the wallet database. -/
  records : Nat → Option Nat := fun _ => none
  keys : Nat := 0
  locked : Bool := false
  /-- The index and the key that each `CReserveKey` has. -/
  reserved : Nat → Option (Nat × Nat) := fun _ => none

/-- A map after `map[key] = value`. -/
def assign {α : Type} (map : Nat → α) (key : Nat) (value : α) : Nat → α :=
  fun other => if other = key then value else map other

namespace KeyPool

/-- `WritePool(nIndex, CKeyPool(GenerateNewKey()))` and `setKeyPool.insert(nIndex)`. -/
def writeNew (pool : KeyPool) (nIndex : Nat) : KeyPool := { pool with
  setKeyPool := insert nIndex pool.setKeyPool
  records := assign pool.records nIndex (some pool.keys)
  keys := pool.keys + 1 }

def newKeyPool (keypool : Int) (pool : KeyPool) : KeyPool :=
  let pool := { pool with
    records := fun nIndex => if nIndex ∈ pool.setKeyPool then none else pool.records nIndex
    setKeyPool := ∅ }
  if pool.locked then pool
  else (List.range (max keypool 0).toNat).foldl (fun pool i => pool.writeNew (i + 1)) pool

/-- The loop of `TopUpKeyPool`; the index after that of the last key is 1 if there is none. -/
def topUpLoop (size : Nat) : Nat → KeyPool → KeyPool
  | 0, pool => pool
  | fuel + 1, pool =>
    if pool.setKeyPool.card < size then
      topUpLoop size fuel (pool.writeNew (pool.setKeyPool.sup id + 1))
    else pool

def topUpKeyPool (keypool : Int) (kpSize : UInt32) (pool : KeyPool) : KeyPool :=
  if pool.locked then pool
  else
    let nTargetSize := if kpSize > 0 then kpSize else UInt32.ofInt (max keypool 0)
    let size := (nTargetSize + 1).toNat
    topUpLoop size size pool

/-- `GetReservedKey` and `ReserveKeyFromKeyPool`. -/
def getReservedKey (keypool : Int) (holder : Nat) (pool : KeyPool) : Except String KeyPool :=
  if (pool.reserved holder).isSome then .ok pool
  else
    let pool := pool.topUpKeyPool keypool 0
    if nonempty : pool.setKeyPool.Nonempty then
      let nIndex := pool.setKeyPool.min' nonempty
      match pool.records nIndex with
      | none => .error "ReserveKeyFromKeyPool(): read failed"
      | some key =>
        if key < pool.keys then .ok { pool with
          setKeyPool := pool.setKeyPool.erase nIndex
          reserved := assign pool.reserved holder (nIndex, key) }
        else .error "ReserveKeyFromKeyPool(): unknown key in key pool"
    else .ok pool

def keepKey (holder : Nat) (pool : KeyPool) : KeyPool :=
  match pool.reserved holder with
  | none => pool
  | some (nIndex, _) => { pool with
    records := assign pool.records nIndex none
    reserved := assign pool.reserved holder none }

def returnKey (holder : Nat) (pool : KeyPool) : KeyPool :=
  match pool.reserved holder with
  | none => pool
  | some (nIndex, _) => { pool with
    setKeyPool := insert nIndex pool.setKeyPool
    reserved := assign pool.reserved holder none }

inductive Call
  | topUpKeyPool (kpSize : UInt32)
  | getReservedKey (holder : Nat)
  | keepKey (holder : Nat)
  | returnKey (holder : Nat)
  | newKeyPool
  | setLocked (locked : Bool)

def call (keypool : Int) (pool : KeyPool) : Call → Except String KeyPool
  | .topUpKeyPool kpSize => .ok (pool.topUpKeyPool keypool kpSize)
  | .getReservedKey holder => pool.getReservedKey keypool holder
  | .keepKey holder => .ok (pool.keepKey holder)
  | .returnKey holder => .ok (pool.returnKey holder)
  | .newKeyPool => .ok (pool.newKeyPool keypool)
  | .setLocked locked => .ok { pool with locked }

/-- Every index of the pool has a record with a key of its own, and those that are reserved, each
by one holder, are not in the pool.
-/
structure Consistent (pool : KeyPool) : Prop where
  recorded : ∀ nIndex ∈ pool.setKeyPool, pool.records nIndex ≠ none
  known : ∀ {nIndex key}, pool.records nIndex = some key → key < pool.keys
  own : ∀ {nIndex other key}, pool.records nIndex = some key → pool.records other = some key
    → nIndex = other
  held : ∀ {holder nIndex key}, pool.reserved holder = some (nIndex, key)
    → pool.records nIndex = some key ∧ nIndex ∉ pool.setKeyPool
  apart : ∀ {holder other nIndex key next}, pool.reserved holder = some (nIndex, key)
    → pool.reserved other = some (nIndex, next) → holder = other

/-- A key that is added comes after those that are reserved. -/
def Ahead (pool : KeyPool) : Prop :=
  ∀ holder nIndex key, pool.reserved holder = some (nIndex, key) → nIndex ≤ pool.setKeyPool.sup id

/-- New keys are written after those that are reserved, or none is. -/
def Allows (pool : KeyPool) : Call → Prop
  | .topUpKeyPool _ => ¬ pool.locked → pool.Ahead
  | .getReservedKey holder => pool.reserved holder = none → ¬ pool.locked → pool.Ahead
  | .newKeyPool => ¬ pool.locked → ∀ holder, pool.reserved holder = none
  | _ => True

/-- All calls of a run are allowed. -/
def AllowsAll (keypool : Int) (pool : KeyPool) : List Call → Prop
  | [] => True
  | next :: calls => pool.Allows next ∧
    match pool.call keypool next with
    | .error _ => True
    | .ok after => AllowsAll keypool after calls

variable {pool : KeyPool} {keypool : Int}

theorem Consistent.writeNew (consistent : pool.Consistent) {nIndex}
    (free : ∀ holder key, pool.reserved holder ≠ some (nIndex, key))
    : (pool.writeNew nIndex).Consistent := by
  obtain ⟨recorded, known, own, held, apart⟩ := consistent
  refine ⟨?_, ?_, ?_, ?_, apart⟩ <;> simp only [KeyPool.writeNew, assign] <;> grind

theorem Consistent.topUpLoop (consistent : pool.Consistent) (size fuel : Nat) (ahead : pool.Ahead)
    : (topUpLoop size fuel pool).Consistent := by
  induction fuel generalizing pool with
  | zero => exact consistent
  | succ fuel ih =>
    unfold KeyPool.topUpLoop
    split
    · refine ih (consistent.writeNew fun holder key taken => ?_) fun holder nIndex key taken => ?_
      · exact absurd (ahead _ _ _ taken) (Nat.not_succ_le_self _)
      · exact (ahead _ _ _ taken).trans (Finset.sup_mono (Finset.subset_insert _ _))
    · exact consistent

theorem Consistent.topUpKeyPool (consistent : pool.Consistent) (kpSize : UInt32)
    (allows : pool.Allows (.topUpKeyPool kpSize))
    : (pool.topUpKeyPool keypool kpSize).Consistent := by
  unfold KeyPool.topUpKeyPool
  split
  · exact consistent
  next unlocked => exact consistent.topUpLoop _ _ (allows unlocked)

theorem Consistent.newKeyPool (consistent : pool.Consistent) (allows : pool.Allows .newKeyPool)
    : (pool.newKeyPool keypool).Consistent := by
  obtain ⟨recorded, known, own, held, apart⟩ := consistent
  have erased : { pool with
      records := fun nIndex => if nIndex ∈ pool.setKeyPool then none else pool.records nIndex
      setKeyPool := ∅ }.Consistent := by
    refine ⟨nofun, ?_, ?_, ?_, apart⟩ <;> grind
  dsimp only [KeyPool.newKeyPool]
  split
  next => exact erased
  next unlocked =>
    refine (List.foldlRecOn _ _
      (motive := fun pool : KeyPool => pool.Consistent ∧ ∀ holder, pool.reserved holder = none)
      ⟨erased, allows unlocked⟩ fun pool ⟨consistent, free⟩ i _ => ?_).1
    exact ⟨consistent.writeNew (by simp [free]), free⟩

theorem Consistent.getReservedKey (consistent : pool.Consistent) {holder}
    (allows : pool.Allows (.getReservedKey holder))
    : ∃ after, pool.getReservedKey keypool holder = .ok after ∧ after.Consistent := by
  unfold KeyPool.getReservedKey
  split
  next => exact ⟨pool, rfl, consistent⟩
  next vacant =>
    obtain ⟨recorded, known, own, held, apart⟩ :=
      consistent.topUpKeyPool 0 (allows (Option.not_isSome_iff_eq_none.mp vacant))
    dsimp only
    generalize pool.topUpKeyPool keypool 0 = pool at *
    split
    next nonempty =>
      have mem := pool.setKeyPool.min'_mem nonempty
      split
      next missing => exact absurd missing (recorded _ mem)
      next key found =>
        rw [if_pos (known found)]
        refine ⟨_, rfl, ?_, known, own, ?_, ?_⟩ <;> simp only [assign] <;> grind
    next => exact ⟨pool, rfl, ⟨recorded, known, own, held, apart⟩⟩

theorem Consistent.call (consistent : pool.Consistent) {call} (allows : pool.Allows call)
    : ∃ after, pool.call keypool call = .ok after ∧ after.Consistent := by
  have ⟨recorded, known, own, held, apart⟩ := consistent
  cases call with
  | topUpKeyPool kpSize => exact ⟨_, rfl, consistent.topUpKeyPool kpSize allows⟩
  | getReservedKey holder => exact consistent.getReservedKey allows
  | keepKey holder =>
    refine ⟨_, rfl, ?_⟩
    unfold KeyPool.keepKey
    split
    · exact consistent
    · refine ⟨?_, ?_, ?_, ?_, ?_⟩ <;> simp only [assign] <;> grind
  | returnKey holder =>
    refine ⟨_, rfl, ?_⟩
    unfold KeyPool.returnKey
    split
    · exact consistent
    · refine ⟨?_, known, own, ?_, ?_⟩ <;> simp only [assign] <;> grind
  | newKeyPool => exact ⟨_, rfl, consistent.newKeyPool allows⟩
  | setLocked locked => exact ⟨_, rfl, recorded, known, own, held, apart⟩

theorem Consistent.calls (consistent : pool.Consistent) {calls}
    (allows : pool.AllowsAll keypool calls)
    : ∃ after, calls.foldlM (KeyPool.call keypool) pool = .ok after ∧ after.Consistent := by
  induction calls generalizing pool with
  | nil => exact ⟨pool, rfl, consistent⟩
  | cons call calls ih =>
    obtain ⟨allowed, later⟩ := allows
    obtain ⟨middle, first, kept⟩ := consistent.call allowed
    rw [first] at later
    obtain ⟨after, rest, last⟩ := ih kept later
    exact ⟨after, foldlM_cons_ok.mpr ⟨middle, first, rest⟩, last⟩

/-- As long as new keys are only written beyond those that are reserved, no call throws, every
index of the pool has a record, and holders have different indexes and keys.
-/
theorem reservations_apart (keypool : Int) (calls : List Call)
    (allows : ({} : KeyPool).AllowsAll keypool calls)
    : ∃ pool, calls.foldlM (call keypool) {} = .ok pool
      ∧ (∀ nIndex ∈ pool.setKeyPool, pool.records nIndex ≠ none)
      ∧ ∀ holder other nIndex key next another, holder ≠ other
        → pool.reserved holder = some (nIndex, key) → pool.reserved other = some (next, another)
        → nIndex ≠ next ∧ key ≠ another := by
  have start : ({} : KeyPool).Consistent := ⟨nofun, nofun, nofun, nofun, nofun⟩
  obtain ⟨pool, run, consistent⟩ := start.calls allows
  refine ⟨pool, run, consistent.recorded, ?_⟩
  intro holder other nIndex key next another ne first second
  have distinct : nIndex ≠ next := by
    rintro rfl
    exact ne (consistent.apart first second)
  refine ⟨distinct, ?_⟩
  rintro rfl
  exact distinct (consistent.own (consistent.held first).1 (consistent.held second).1)

theorem reservations_apart_two
    : ∃ pool nIndex key next another,
        [.getReservedKey 0, .getReservedKey 1].foldlM (call 1) {} = .ok pool
        ∧ pool.reserved 0 = some (nIndex, key) ∧ pool.reserved 1 = some (next, another)
        ∧ nIndex ≠ next ∧ key ≠ another := by
  have allows : ({} : KeyPool).AllowsAll 1 [.getReservedKey 0, .getReservedKey 1] := by
    refine ⟨fun _ _ => nofun, fun _ _ holder nIndex key taken => ?_, trivial⟩
    obtain rfl : holder = 0 := by
      by_contra other
      exact nomatch (if_neg other).symm.trans taken
    cases taken
    decide
  obtain ⟨pool, run, -, apart⟩ := reservations_apart 1 _ allows
  cases run
  exact ⟨_, _, _, _, _, rfl, rfl, rfl, apart 0 1 _ _ _ _ (by decide) rfl rfl⟩

/-- Without keys in advance two holders get the same index; when one of them keeps the key and the
other one returns it, it cannot be read any more.
-/
theorem reserved_twice
    : [.getReservedKey 0, .getReservedKey 1, .keepKey 0, .returnKey 1, .getReservedKey 0].foldlM
        (call 0) {} = .error "ReserveKeyFromKeyPool(): read failed" := by
  rfl

end KeyPool

end Resistance.Wallet

import Resistance.Wallet.WitnessCache

/-! The loops over the wallet change each note by itself. Sprout and Sapling notes are looked at
in the same way, under the transaction and the outpoint at which the wallet keeps them.
-/

namespace Resistance.Wallet.NoteCache

open Primitives Zcash Lib Lib.Checks FiniteMap

inductive Pool where
  | sprout
  | sapling
  deriving DecidableEq

inductive NoteKey where
  | sprout (key : JSOutPoint)
  | sapling (key : SaplingOutPoint)
  deriving DecidableEq

namespace NoteKey

def pool : NoteKey → Pool
  | sprout _ => .sprout
  | sapling _ => .sapling

def hash : NoteKey → Uint256
  | sprout key => key.hash
  | sapling key => key.hash

end NoteKey

def CWalletTx.note (wtx : CWalletTx) : NoteKey → Option NoteData
  | .sprout key => wtx.mapSproutNoteData.lookup key
  | .sapling key => wtx.mapSaplingNoteData.lookup key

def CWallet.note (wallet : CWallet) (hash : Uint256) (key : NoteKey) : Option NoteData :=
  (wallet.mapWallet.lookup hash).bind fun wtx => wtx.note key

/-- A change of one note. -/
abbrev Change := NoteData → Except String NoteData

/-- A change of a transaction that changes each of its notes by itself. -/
def TxWise (g : CWalletTx → Except String CWalletTx) (f : NoteKey → Change) : Prop :=
  ∀ (wtx : CWalletTx) (Q : NoteKey → NoteData → Prop),
    (∀ key nd, wtx.note key = some nd → ∃ nd', f key nd = .ok nd' ∧ Q key nd')
    → ∃ after, g wtx = .ok after ∧ ∀ key nd, after.note key = some nd → Q key nd

/-- The notes of one pool are changed. -/
def inPool (pool : Pool) (f : Change) (key : NoteKey) : Change :=
  if key.pool = pool then f else .ok

/-- A single note is changed. -/
def atKey (key : NoteKey) (f : Change) (other : NoteKey) : Change :=
  if other = key then f else .ok

namespace CWalletTx

variable {f : NoteKey → Change}

theorem sprout_wise {g} (wise : FiniteMap.Wise g fun key => f (.sprout key))
    (others : ∀ key, f (.sapling key) = .ok)
    : TxWise (fun wtx => do return { wtx with mapSproutNoteData := ← g wtx.mapSproutNoteData })
        f := by
  intro wtx Q change
  obtain ⟨notes, run, changed⟩ := wise wtx.mapSproutNoteData (fun key => Q (.sprout key))
    fun key => change (.sprout key)
  refine ⟨{ wtx with mapSproutNoteData := notes }, bind_ok.mpr ⟨notes, run, rfl⟩, ?_⟩
  intro key nd found
  cases key with
  | sprout key => exact changed key nd found
  | sapling key =>
    obtain ⟨_, same, holds⟩ := change (.sapling key) nd found
    rw [others] at same
    cases same
    exact holds

theorem sapling_wise {g} (wise : FiniteMap.Wise g fun key => f (.sapling key))
    (others : ∀ key, f (.sprout key) = .ok)
    : TxWise (fun wtx => do return { wtx with mapSaplingNoteData := ← g wtx.mapSaplingNoteData })
        f := by
  intro wtx Q change
  obtain ⟨notes, run, changed⟩ := wise wtx.mapSaplingNoteData (fun key => Q (.sapling key))
    fun key => change (.sapling key)
  refine ⟨{ wtx with mapSaplingNoteData := notes }, bind_ok.mpr ⟨notes, run, rfl⟩, ?_⟩
  intro key nd found
  cases key with
  | sprout key =>
    obtain ⟨_, same, holds⟩ := change (.sprout key) nd found
    rw [others] at same
    cases same
    exact holds
  | sapling key => exact changed key nd found

theorem forSprout_wise (f : Change) : TxWise (forSprout f) (inPool .sprout f) :=
  sprout_wise (forEach_wise f) fun _ => rfl

theorem forSapling_wise (f : Change) : TxWise (forSapling f) (inPool .sapling f) :=
  sapling_wise (forEach_wise f) fun _ => rfl

/-- The two loops, one after the other. -/
theorem forBoth_wise (f : Change)
    : TxWise (fun wtx => do (← wtx.forSprout f).forSapling f) (fun _ => f) := by
  intro wtx Q change
  obtain ⟨middle, first, changed⟩ := forSprout_wise f wtx
    (fun key nd => ∃ nd', inPool .sapling f key nd = .ok nd' ∧ Q key nd') fun key nd found => by
      obtain ⟨nd', run, holds⟩ := change key nd found
      cases key with
      | sprout key => exact ⟨nd', run, nd', rfl, holds⟩
      | sapling key => exact ⟨nd, rfl, nd', run, holds⟩
  obtain ⟨after, second, holds⟩ := forSapling_wise f middle Q changed
  exact ⟨after, bind_ok.mpr ⟨middle, first, second⟩, holds⟩

theorem witnessSprout_wise (f : Change) (key : JSOutPoint)
    : TxWise (witnessSprout f key) (atKey (.sprout key) f) := by
  refine sprout_wise ?_ fun _ => if_neg nofun
  simpa [atKey] using changeAt_wise f key

theorem witnessSapling_wise (f : Change) (key : SaplingOutPoint)
    : TxWise (witnessSapling f key) (atKey (.sapling key) f) := by
  refine sapling_wise ?_ fun _ => if_neg nofun
  simpa [atKey] using changeAt_wise f key

end CWalletTx

/-- The notes of one transaction are changed. -/
def atHash (hash : Uint256) (f : NoteKey → Change) (other : Uint256) (key : NoteKey) : Change :=
  if other = hash then f key else .ok

/-- All notes of the wallet have a property. -/
def CWallet.All (P : Uint256 → NoteKey → NoteData → Prop) (wallet : CWallet) : Prop :=
  ∀ hash key nd, wallet.note hash key = some nd → P hash key nd

/-- A change of the wallet that changes each note by itself, and not the cache size. -/
def WalletWise (g : CWallet → Except String CWallet) (f : Uint256 → NoteKey → Change) : Prop :=
  ∀ (wallet : CWallet) (Q : Uint256 → NoteKey → NoteData → Prop),
    wallet.All (fun hash key nd => ∃ nd', f hash key nd = .ok nd' ∧ Q hash key nd')
    → ∃ after, g wallet = .ok after ∧ after.nWitnessCacheSize = wallet.nWitnessCacheSize
      ∧ after.All Q

namespace CWallet

theorem note_some {wallet : CWallet} {hash key nd}
    : wallet.note hash key = some nd
      ↔ ∃ wtx, wallet.mapWallet.lookup hash = some wtx ∧ wtx.note key = some nd := by
  rw [note, Option.bind_eq_some_iff]

variable {g : CWalletTx → Except String CWalletTx} {f : NoteKey → Change}

theorem forTransactions_wise (each : TxWise g f)
    : WalletWise (forTransactions g) (fun _ => f) := by
  intro wallet Q change
  obtain ⟨mapWallet, run, changed⟩ := forEach_wise g wallet.mapWallet
    (fun hash wtx => ∀ key nd, wtx.note key = some nd → Q hash key nd) fun hash wtx found =>
      each wtx (Q hash) fun key nd there => change hash key nd (note_some.mpr ⟨wtx, found, there⟩)
  refine ⟨{ wallet with mapWallet }, bind_ok.mpr ⟨mapWallet, run, rfl⟩, rfl, ?_⟩
  intro hash key nd found
  obtain ⟨wtx, there, isNote⟩ := note_some.mp found
  exact changed hash wtx there key nd isNote

theorem atTransaction_wise (each : TxWise g f) (hash : Uint256)
    : WalletWise (atTransaction hash g) (atHash hash f) := by
  intro wallet Q change
  obtain ⟨mapWallet, run, changed⟩ := changeAt_wise g hash wallet.mapWallet
    (fun hash wtx => ∀ key nd, wtx.note key = some nd → Q hash key nd) fun other wtx found => by
      have changes := fun key nd there => change other key nd (note_some.mpr ⟨wtx, found, there⟩)
      simp only [atHash] at changes
      dsimp only
      split
      next same =>
        simp only [if_pos same] at changes
        exact each wtx (Q other) changes
      next differs =>
        refine ⟨wtx, rfl, fun key nd there => ?_⟩
        obtain ⟨_, same, holds⟩ := changes key nd there
        rw [if_neg differs] at same
        cases same
        exact holds
  refine ⟨{ wallet with mapWallet }, bind_ok.mpr ⟨mapWallet, run, rfl⟩, rfl, ?_⟩
  intro other key nd found
  obtain ⟨wtx, there, isNote⟩ := note_some.mp found
  exact changed other wtx there key nd isNote

end CWallet

end Resistance.Wallet.NoteCache

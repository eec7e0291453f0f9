import Resistance.Privatizer.Manager

/-! The two address maps of the privatizer manager under calls of `AddPrivatizer` and
`RemovePrivatizer`. They stay inverse to each other as long as no private address is shared and
no privatizer gets another one.
-/

namespace Resistance.Privatizer.PrivatizerMan

open Lib Lib.Checks FiniteMap

def removePrivatizer (man : PrivatizerMan) (publicAddress privateAddress : String)
    (matchAll : Bool) : Except String PrivatizerMan := do
  let item := man.getPrivatizer publicAddress (if matchAll then privateAddress else "")
  throwIf item.empty "Not exist"
  return { man with
    mapPublicaddrPrivatizer := man.mapPublicaddrPrivatizer.erase item.publicAddress
    mapPrivateaddrPrivatizerId := man.mapPrivateaddrPrivatizerId.erase item.privateAddress }

/-- A call, with the addresses that are spendable by the wallet at that time. -/
inductive Call where
  | add (isMineSpendable : String → Bool) (publicAddress privateAddress : String)
    (overwrite : Bool)
  | remove (publicAddress privateAddress : String) (matchAll : Bool)

/-- The private address of the entry of a public address. -/
def privateOf (man : PrivatizerMan) (publicAddress : String) : Option String :=
  (man.mapPublicaddrPrivatizer.lookup publicAddress).map (·.privateAddress)

section Decoded

variable {D : Type} [DecidableEq D] (decodeDestination : String → D)
  (isValidDestination : String → Bool)

def call (man : PrivatizerMan) : Call → Except String PrivatizerMan
  | .add isMineSpendable publicAddress privateAddress overwrite =>
    man.addPrivatizer
      { isValidDestination, isMineSpendable
        sameDestination := fun a b => decide (decodeDestination a = decodeDestination b) }
      publicAddress privateAddress overwrite
  | .remove publicAddress privateAddress matchAll =>
    man.removePrivatizer publicAddress privateAddress matchAll

/-- A call that throws leaves the manager as it was. -/
def called (man : PrivatizerMan) (call : Call) : PrivatizerMan :=
  match man.call decodeDestination isValidDestination call with
  | .ok man => man
  | .error _ => man

/-- Every entry is stored under its public address, the map of private addresses has exactly the
pairs of the entries, and no public address of an entry is the private address of one.
-/
structure AddressMaps (man : PrivatizerMan) : Prop where
  keyed : ∀ p info, man.mapPublicaddrPrivatizer.lookup p = some info → info.publicAddress = p
  pairs : ∀ s p, man.mapPrivateaddrPrivatizerId.lookup s = some p ↔ man.privateOf p = some s
  apart : ∀ p s p' s', man.privateOf p = some s → man.privateOf p' = some s'
    → decodeDestination p ≠ decodeDestination s'

/-- What has to hold before a call: a privatizer that is there keeps its private address, and one
that is added anew shares its private address with no other one and uses no address the other way
round.
-/
def Allowed (man : PrivatizerMan) : Call → Prop
  | .add isMineSpendable p s overwrite =>
    (∃ what, man.call decodeDestination isValidDestination (.add isMineSpendable p s overwrite)
      = .error what)
    ∨ man.privateOf p = some s
    ∨ man.privateOf p = none ∧ ∀ p' s', man.privateOf p' = some s' → s' ≠ s
      ∧ decodeDestination p ≠ decodeDestination s' ∧ decodeDestination p' ≠ decodeDestination s
  | .remove .. => True

/-- The maps are right at the start and after every call. -/
def Kept : PrivatizerMan → List Call → Prop
  | man, [] => man.AddressMaps decodeDestination
  | man, call :: calls =>
    man.AddressMaps decodeDestination
    ∧ Kept (man.called decodeDestination isValidDestination call) calls

/-- Every call is allowed when it is made. -/
def AllAllowed : PrivatizerMan → List Call → Prop
  | _, [] => True
  | man, call :: calls =>
    man.Allowed decodeDestination isValidDestination call
    ∧ AllAllowed (man.called decodeDestination isValidDestination call) calls

end Decoded

/-- The entry of a public address gets a private address, and the pair is written. -/
structure Stored (man added : PrivatizerMan) (p s : String) : Prop where
  keyed : ∀ p' info, added.mapPublicaddrPrivatizer.lookup p' = some info
    → info.publicAddress = p' ∨ man.mapPublicaddrPrivatizer.lookup p' = some info
  privates : ∀ p', added.privateOf p' = if p' = p then some s else man.privateOf p'
  pairs : ∀ s', added.mapPrivateaddrPrivatizerId.lookup s'
    = if s' = s then some p else man.mapPrivateaddrPrivatizerId.lookup s'

variable {man : PrivatizerMan}

theorem getPrivatizer_not_empty {publicAddress privateAddress}
    (there : (man.getPrivatizer publicAddress privateAddress).empty = false)
    : man.mapPublicaddrPrivatizer.lookup publicAddress
      = some (man.getPrivatizer publicAddress privateAddress) := by
  rcases man.getPrivatizer_cases publicAddress privateAddress with none | found
  · rw [none] at there
    cases there
  · exact found

theorem addPrivatizer_ok {added wallet p s overwrite}
    (run : man.addPrivatizer wallet p s overwrite = .ok added)
    : wallet.sameDestination p s = false
      ∧ (man.privateOf p = some s ∧ added = man ∨ man.Stored added p s) := by
  simp only [addPrivatizer, bind_ok] at run
  obtain ⟨_, _, _, _, _, _, _, _, _, differ, _, _, _, _, _, _, run⟩ := run
  refine ⟨by simpa using differ, ?_⟩
  split at run
  next same =>
    simp only [Bool.and_eq_true, Bool.not_eq_true', decide_eq_true_eq] at same
    cases run
    exact .inl ⟨by rw [privateOf, getPrivatizer_not_empty same.1, Option.map_some, same.2], rfl⟩
  next =>
    cases run
    have entries := lookup_put man.mapPublicaddrPrivatizer p
      (some { man.getPrivatizer p "" with publicAddress := p, privateAddress := s })
    refine .inr ⟨fun p' info found => ?_, fun p' => ?_, lookup_put _ s (some p)⟩
    · replace found := (entries p').symm.trans found
      split at found
      next same => exact .inl (Option.some.inj found ▸ same.symm)
      next => exact .inr found
    · refine (congrArg (Option.map _) (entries p')).trans ?_
      rw [apply_ite (Option.map _)]
      rfl

section Decoded

variable {D : Type} {decodeDestination : String → D}
  {man removed : PrivatizerMan} {p privateAddress : String} {matchAll : Bool}

section

variable (maps : man.AddressMaps decodeDestination)
include maps

theorem removePrivatizer_ok (run : man.removePrivatizer p privateAddress matchAll = .ok removed)
    : ∃ s, man.privateOf p = some s
      ∧ (∀ p', removed.mapPublicaddrPrivatizer.lookup p'
        = if p' = p then none else man.mapPublicaddrPrivatizer.lookup p')
      ∧ ∀ s', removed.mapPrivateaddrPrivatizerId.lookup s'
        = if s' = s then none else man.mapPrivateaddrPrivatizerId.lookup s' := by
  simp only [removePrivatizer, bind_ok] at run
  obtain ⟨_, there, run⟩ := run
  have found := getPrivatizer_not_empty (by simpa using there)
  cases run
  refine ⟨_, congrArg (Option.map _) found, fun p' => ?_, fun s' => ?_⟩
  · rw [maps.keyed _ _ found]
    exact lookup_put _ _ none _
  · exact lookup_put _ _ none _

/-- Storing a pair keeps the maps right where the pair was there, or is new to both maps. -/
theorem Stored.addressMaps_iff {added s} (stored : man.Stored added p s)
    (differ : decodeDestination p ≠ decodeDestination s)
    : added.AddressMaps decodeDestination
      ↔ man.privateOf p = some s
        ∨ man.privateOf p = none ∧ ∀ p' s', man.privateOf p' = some s' → s' ≠ s
          ∧ decodeDestination p ≠ decodeDestination s'
          ∧ decodeDestination p' ≠ decodeDestination s := by
  have pairs := maps.pairs
  have apart := maps.apart
  have privates := stored.privates
  have written := stored.pairs
  constructor
  · intro after
    have pairs' := after.pairs
    have apart' := after.apart
    cases there : man.privateOf p with
    | none =>
      -- another entry with the private address would have lost its pair
      refine .inr ⟨rfl, fun p' s' found => ?_⟩
      have kept := pairs' s' p'
      grind
    | some s' =>
      -- the pair with the former private address is still written
      have stale := (pairs s' p).mpr there
      grind
  · intro fresh
    refine ⟨fun p' info found => ?_, fun s' p' => ?_, fun p' s' p'' s'' => ?_⟩
    · exact (stored.keyed p' info found).elim id (maps.keyed p' info)
    · have owner := pairs s p
      grind
    · rcases fresh with there | ⟨absent, unused⟩
      · grind
      · have other := unused p'' s''
        grind

theorem removePrivatizer_addressMaps
    (run : man.removePrivatizer p privateAddress matchAll = .ok removed)
    : removed.AddressMaps decodeDestination := by
  obtain ⟨s, owner, entries, erased⟩ := removePrivatizer_ok maps run
  have privates : ∀ p', removed.privateOf p' = if p' = p then none else man.privateOf p' := by
    intro p'
    rw [privateOf, entries, apply_ite (Option.map _)]
    rfl
  have pairs := maps.pairs
  have apart := maps.apart
  refine ⟨fun p' info found => maps.keyed p' info ?_, fun s' p' => ?_, fun p' s' p'' s'' => ?_⟩
  · grind
  · have pair := pairs s p
    grind
  · grind

end

variable [DecidableEq D] {isValidDestination : String → Bool}

/-- One call keeps the maps right exactly when it is allowed. -/
theorem called_addressMaps_iff (call : Call) (maps : man.AddressMaps decodeDestination)
    : (man.called decodeDestination isValidDestination call).AddressMaps decodeDestination
      ↔ man.Allowed decodeDestination isValidDestination call := by
  unfold called
  cases call with
  | remove publicAddress privateAddress matchAll =>
    refine iff_of_true ?_ trivial
    split
    next removed run => exact removePrivatizer_addressMaps maps run
    next => exact maps
  | add isMineSpendable p s overwrite =>
    simp only [Allowed]
    split
    next added run =>
      obtain ⟨differ, there⟩ := addPrivatizer_ok run
      rw [run, or_iff_right (by simp)]
      rcases there with ⟨there, rfl⟩ | stored
      · exact iff_of_true maps (.inl there)
      · exact stored.addressMaps_iff maps (of_decide_eq_false differ)
    next what run => exact iff_of_true maps (.inl ⟨what, run⟩)

theorem kept_iff (calls : List Call) (maps : man.AddressMaps decodeDestination)
    : man.Kept decodeDestination isValidDestination calls
      ↔ man.AllAllowed decodeDestination isValidDestination calls := by
  induction calls generalizing man with
  | nil => exact iff_of_true maps trivial
  | cons call calls ih =>
    rw [Kept, AllAllowed, and_iff_right maps, ← called_addressMaps_iff call maps]
    constructor
    · intro kept
      have next : (man.called decodeDestination isValidDestination call).AddressMaps
          decodeDestination := by
        cases calls with
        | nil => exact kept
        | cons => exact kept.1
      exact ⟨next, (ih next).mp kept⟩
    · exact fun ⟨next, allowed⟩ => (ih next).mpr allowed

/-- Along every sequence of calls from the empty manager, the maps stay inverse and the addresses
apart exactly as long as every call is allowed.
-/
theorem addressMaps_kept_iff (decodeDestination : String → D)
    (isValidDestination : String → Bool) (calls : List Call)
    : Kept decodeDestination isValidDestination {} calls
      ↔ AllAllowed decodeDestination isValidDestination {} calls :=
  kept_iff calls ⟨nofun, fun _ _ => iff_of_false nofun nofun, nofun⟩

end Decoded

/-- Two privatizers with one private address: the pair of the first one is overwritten. -/
theorem addressMaps_shared_private
    : ¬ Kept id (fun _ => true) {}
      [.add (fun _ => true) "P1" "S" false, .add (fun _ => true) "P2" "S" false] := by
  intro kept
  have stored := (kept.2.2.pairs "S" "P1").mpr (by decide +kernel)
  exact absurd stored (by decide +kernel)

end Resistance.Privatizer.PrivatizerMan

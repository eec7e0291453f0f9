import Mathlib.Data.List.Forall2
import Resistance.Lib.Checks

/-! Forward simulation between a machine that can fail and a specification that cannot: if
one step keeps a relation and gives related answers, so does every run.
-/

namespace Resistance.Lib.Simulation

open Checks

variable {σ τ ο α β ε : Type}

/-- A run of operations, with the answer to each of them. -/
def run (step : σ → ο → Except ε (σ × α)) : σ → List ο → Except ε (σ × List α)
  | s, [] => .ok (s, [])
  | s, op :: ops => do
    let next ← step s op
    let rest ← run step next.1 ops
    return (rest.1, next.2 :: rest.2)

/-- The run of a specification. -/
def runSpec (spec : τ → ο → τ × β) : τ → List ο → τ × List β
  | t, [] => (t, [])
  | t, op :: ops =>
    let next := spec t op
    let rest := runSpec spec next.1 ops
    (rest.1, next.2 :: rest.2)

/-- Every operation of a run is allowed in the state in which it is made. -/
def Allowed (step : σ → ο → Except ε (σ × α)) (allowed : σ → ο → Prop) : σ → List ο → Prop
  | _, [] => True
  | s, op :: ops =>
    allowed s op ∧ ∀ next, step s op = .ok next → Allowed step allowed next.1 ops

variable {allowed : σ → ο → Prop} {s : σ} {ops : List ο}

theorem Allowed.cons {step : σ → ο → Except ε (σ × α)} {op next} (stepped : step s op = .ok next)
    (first : allowed s op) (later : Allowed step allowed next.1 ops)
    : Allowed step allowed s (op :: ops) := by
  refine ⟨first, fun other again => ?_⟩
  obtain rfl : next = other := Except.ok.inj (stepped.symm.trans again)
  exact later

/-- A condition on single operations can be added to what is allowed. -/
theorem Allowed.and {step : σ → ο → Except ε (σ × α)} {also : ο → Prop}
    (discipline : Allowed step allowed s ops) (every : ∀ op ∈ ops, also op)
    : Allowed step (fun s op => allowed s op ∧ also op) s ops := by
  induction ops generalizing s with
  | nil => trivial
  | cons op ops ih =>
    obtain ⟨first, later⟩ := discipline
    refine ⟨⟨first, every op List.mem_cons_self⟩, fun next stepped => ?_⟩
    exact ih (later next stepped) fun op mem => every op (List.mem_cons_of_mem _ mem)

/-- From related states an allowed step succeeds, keeps the relation and answers alike. -/
def Simulates (step : σ → ο → Except ε (σ × α)) (allowed : σ → ο → Prop)
    (spec : τ → ο → τ × β) (related : σ → τ → Prop) (agree : α → β → Prop) : Prop :=
  ∀ s t op, related s t → allowed s op →
    ∃ next, step s op = .ok next ∧ related next.1 (spec t op).1 ∧ agree next.2 (spec t op).2

theorem Simulates.run_ok {step : σ → ο → Except ε (σ × α)} {spec : τ → ο → τ × β} {related} {agree}
    (simulates : Simulates step allowed spec related agree) {t} (start : related s t)
    (discipline : Allowed step allowed s ops)
    : ∃ last, run step s ops = .ok last
      ∧ related last.1 (runSpec spec t ops).1
      ∧ List.Forall₂ agree last.2 (runSpec spec t ops).2 := by
  induction ops generalizing s t with
  | nil => exact ⟨(s, []), rfl, start, .nil⟩
  | cons op ops ih =>
    obtain ⟨first, later⟩ := discipline
    obtain ⟨next, stepped, kept, answered⟩ := simulates s t op start first
    obtain ⟨last, finished, related, answers⟩ := ih kept (later next stepped)
    refine ⟨(last.1, next.2 :: last.2), ?_, related, .cons answered answers⟩
    exact bind_ok.mpr ⟨next, stepped, bind_ok.mpr ⟨last, finished, rfl⟩⟩

end Resistance.Lib.Simulation

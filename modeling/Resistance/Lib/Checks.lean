import Mathlib.Logic.Unique

/-! Computations that stop at the first failed check: what follows from a run that returned,
and invariants of checked loops.
-/

namespace Resistance.Lib.Checks

open List

variable {ε δ α β σ : Type} {x : Except ε α} {xs : List α} {s t : σ}

/-- A sequence returned only if its first part did. -/
@[simp] theorem bind_ok {f : α → Except ε β} {b}
    : x >>= f = .ok b ↔ ∃ a, x = .ok a ∧ f a = .ok b := by
  cases x with
  | error e =>
    constructor
    · intro run
      cases run
    · rintro ⟨a, run, _⟩
      cases run
  | ok a =>
    constructor
    · intro run
      exact ⟨a, rfl, run⟩
    · rintro ⟨_, ⟨⟩, run⟩
      exact run

theorem ok_bind (a : α) (f : α → Except ε β) : Except.ok a >>= f = f a :=
  rfl

@[simp] theorem pure_ok {a b} : (pure a : Except ε α) = .ok b ↔ a = b := by
  constructor
  · rintro ⟨⟩
    rfl
  · rintro rfl
    rfl

@[simp] theorem mapError_ok {f : ε → δ} {a}
    : x.mapError f = .ok a ↔ x = .ok a := by
  cases x <;> constructor <;> intro run <;> cases run <;> rfl

theorem exists_of_isOk {x : Except ε α} (ok : x.isOk = true) : ∃ a, x = .ok a := by
  cases x with
  | error e => cases ok
  | ok a => exact ⟨a, rfl⟩

theorem eq_ok_of_toOption {a} (returned : x.toOption = some a)
    : x = .ok a := by
  cases x with
  | error e => cases returned
  | ok b =>
    cases returned
    rfl

theorem eq_error_of_map {e} (failed : x.map (fun _ => ()) = .error e)
    : x = .error e := by
  cases x with
  | error e' =>
    cases failed
    rfl
  | ok a => cases failed

/-- `if (bad) return failure;` -/
def throwIf (bad : Prop) [Decidable bad] (failure : ε) : Except ε Unit :=
  if bad then .error failure else .ok ()

@[simp] theorem throwIf_ok {bad} [Decidable bad] {failure : ε} {u}
    : throwIf bad failure = .ok u ↔ ¬ bad := by
  unfold throwIf
  split <;> simp_all

/-- `assert(condition);` -/
def assertThat (condition : Prop) [Decidable condition] (text : String) : Except String Unit :=
  throwIf (¬ condition) text

@[simp] theorem assertThat_ok {condition} [Decidable condition] {text u}
    : assertThat condition text = .ok u ↔ condition := by
  rw [assertThat, throwIf_ok, not_not]

/-- A loop of checks returned exactly when every check did. -/
theorem forM_ok {check : α → Except ε Unit}
    : forM xs check = .ok () ↔ ∀ x ∈ xs, check x = .ok () := by
  induction xs with
  | nil => simp
  | cons x xs ih => simp [Unique.exists_iff, ih]

variable {step : σ → α → Except ε σ}

theorem foldlM_cons_ok {x}
    : (x :: xs).foldlM step s = .ok t
      ↔ ∃ middle, step s x = .ok middle ∧ xs.foldlM step middle = .ok t := by
  rw [foldlM_cons, bind_ok]

/-- A loop that returned took a step for each of its items. -/
theorem foldlM_accepts {x} (run : xs.foldlM step s = .ok t) (mem : x ∈ xs)
    : ∃ before after, step before x = .ok after := by
  induction xs generalizing s with
  | nil => cases mem
  | cons y xs ih =>
    obtain ⟨middle, first, rest⟩ := foldlM_cons_ok.mp run
    rcases mem_cons.mp mem with rfl | below
    · exact ⟨s, middle, first⟩
    · exact ih rest below

/-- A fold over a stretch of a sequence, where every step takes the next element. -/
theorem foldlM_listed {holds : Nat → σ → Prop} {element : Nat → α} {n bound}
    (next : ∀ {n s}, holds n s → n < bound → ∃ t, step s (element n) = .ok t ∧ holds (n + 1) t)
    (start : holds n s) (listed : ∀ i x, xs[i]? = some x → element (n + i) = x)
    (room : n + xs.length ≤ bound)
    : ∃ t, xs.foldlM step s = .ok t ∧ holds (n + xs.length) t := by
  induction xs generalizing n s with
  | nil => exact ⟨s, rfl, start⟩
  | cons x xs ih =>
    rw [length_cons] at room
    obtain ⟨middle, first, further⟩ := next start (by omega)
    have later (i : Nat) (y : α) (found : xs[i]? = some y) : element (n + 1 + i) = y := by
      rw [Nat.add_assoc, Nat.add_comm 1 i]
      exact listed (i + 1) y found
    obtain ⟨t, rest, reached⟩ := ih further later (by omega)
    have isFirst : element n = x := listed 0 x rfl
    rw [isFirst] at first
    refine ⟨t, foldlM_cons_ok.mpr ⟨middle, first, rest⟩, ?_⟩
    rw [length_cons, Nat.add_comm xs.length, ← Nat.add_assoc]
    exact reached

/-- A loop that returned also returns with another body, if that takes the same steps wherever
an invariant holds.
-/
theorem foldlM_transfer {inv : σ → Prop} {other : σ → α → Except δ σ}
    (steps : ∀ {s x t}, inv s → step s x = .ok t → inv t ∧ other s x = .ok t) (start : inv s)
    (run : xs.foldlM step s = .ok t)
    : inv t ∧ xs.foldlM other s = .ok t := by
  induction xs generalizing s with
  | nil =>
    cases run
    exact ⟨start, rfl⟩
  | cons x xs ih =>
    obtain ⟨middle, first, rest⟩ := foldlM_cons_ok.mp run
    obtain ⟨kept, taken⟩ := steps start first
    obtain ⟨last, others⟩ := ih kept rest
    exact ⟨last, foldlM_cons_ok.mpr ⟨middle, taken, others⟩⟩

/-- A loop over items all of which return collects what they return; what an item leaves as it
was is left as it was in the list.
-/
theorem mapM_keeps {γ} {f : α → Except ε β} {g : α → γ} {h} {good : β → Prop}
    (each : ∀ x ∈ xs, ∃ y, f x = .ok y ∧ h y = g x ∧ good y)
    : ∃ ys, xs.mapM f = .ok ys ∧ ys.map h = xs.map g ∧ ∀ y ∈ ys, good y := by
  induction xs with
  | nil => exact ⟨[], rfl, rfl, nofun⟩
  | cons x xs ih =>
    obtain ⟨y, first, same, here⟩ := each x mem_cons_self
    obtain ⟨ys, rest, kept, later⟩ := ih fun x mem => each x (mem_cons_of_mem _ mem)
    refine ⟨y :: ys, ?_, ?_, forall_mem_cons.mpr ⟨here, later⟩⟩
    · rw [mapM_cons, first, rest]
      rfl
    · rw [map_cons, map_cons, same, kept]

/-- A loop that fails at an item it has seen before. -/
def checkDistinct [DecidableEq α] (failure : ε) : List α → List α → Except ε Unit
  | _, [] => pure ()
  | seen, x :: xs => do
    throwIf (x ∈ seen) failure
    checkDistinct failure (x :: seen) xs

theorem checkDistinct_ok [DecidableEq α] {failure : ε} {seen u}
    (run : checkDistinct failure seen xs = .ok u)
    : xs.Nodup ∧ ∀ x ∈ xs, x ∉ seen := by
  induction xs generalizing seen with
  | nil => exact ⟨nodup_nil, nofun⟩
  | cons x xs ih =>
    obtain ⟨_, fresh, rest⟩ := bind_ok.mp run
    obtain ⟨nodup, later⟩ := ih rest
    refine ⟨nodup_cons.mpr ⟨fun again => later x again mem_cons_self, nodup⟩, ?_⟩
    intro y mem
    rcases mem_cons.mp mem with rfl | below
    · exact throwIf_ok.mp fresh
    · exact fun listed => later y below (mem_cons_of_mem _ listed)

end Resistance.Lib.Checks

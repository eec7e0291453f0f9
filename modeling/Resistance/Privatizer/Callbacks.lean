import Resistance.Async.Operation
import Resistance.Privatizer.Manager

/-! What escapes the callback at the end of a `z_sendmany`, from `OnFinishedZsendmany` of
`privatizer.cpp` through `AsyncRPCOperation_sendmany::main` to the worker of `AsyncRPCQueue::run`.
-/

namespace Resistance.Privatizer.Callbacks

open Lib.Checks Async

/-- An `AsyncRPCOperation_sendmany`, with the outcome of `main_impl` and the answers after it. -/
structure Operation where
  id : String
  state : OperationStatus := .ready
  errorCode : Int := 0
  errorMessage : String := ""
  mainImpl : Except Thrown Bool
  answers : EndAnswers

namespace Operation

/-- The handlers of `main`. -/
def setError (operation : Operation) : Thrown → Operation
  | .uniValue code message => { operation with errorCode := code, errorMessage := message }
  | .runtimeError what =>
    { operation with errorCode := -1, errorMessage := "runtime error: " ++ what }
  | .logicError what => { operation with errorCode := -1, errorMessage := "logic error: " ++ what }
  | .exception what =>
    { operation with errorCode := -1, errorMessage := "general exception: " ++ what }
  | .other => { operation with errorCode := -2, errorMessage := "unknown error" }

/-- `success` at the end of `main`. -/
def succeeds (operation : Operation) : Bool := operation.mainImpl.toOption.getD false

def main (operation : Operation) (man : PrivatizerMan)
    : Except Thrown (Operation × PrivatizerMan) := do
  if operation.state = .cancelled then return (operation, man)
  let finished := match operation.mainImpl with
    | .ok _ => operation
    | .error thrown => operation.setError thrown
  let state := if operation.succeeds then .success else .failed
  -- The callback is outside of the `try` block.
  let man ← man.onFinishedZsendmany operation.id operation.succeeds operation.answers
  return ({ finished with state }, man)

end Operation

/-- `AsyncRPCQueue::run`, for the operations that a worker takes from the queue. Some of the ids
have been removed from the map.
-/
def run : PrivatizerMan → List (Option Operation) → Except Thrown PrivatizerMan
  | man, [] => return man
  | man, none :: operations => run man operations
  | man, some operation :: operations =>
    if operation.state = .cancelled then run man operations
    else do
      let finished ← operation.main man
      run finished.2 operations

/-- The callback needs a new address for the work after a completed one, and gets an exception that
is not a `std::exception`.
-/
def Escapes (man : PrivatizerMan) (opid : String) (success : Bool) (answers : EndAnswers) : Prop :=
  success = true ∧ ∃ id work thrown, man.mapOpidPrivatizerId.lookup opid = some id
    ∧ (man.getPrivatizer id "").empty = false
    ∧ (man.getPrivatizer id "").workflows.find? (·.opid = opid) = some work
    ∧ work.workflow = .tToZ ∧ answers.newAddress = .error thrown ∧ thrown.what? = none

/-- No callback of the worker throws. -/
def AllReturn : PrivatizerMan → List (Option Operation) → Prop
  | _, [] => True
  | man, none :: operations => AllReturn man operations
  | man, some operation :: operations =>
    if operation.state = .cancelled then AllReturn man operations
    else ¬ Escapes man operation.id operation.succeeds operation.answers
      ∧ ∀ finished, operation.main man = .ok finished → AllReturn finished.2 operations

/-- Something that is not a `std::exception` is thrown. -/
def Crashes {α : Type} (result : Except Thrown α) : Prop :=
  ∃ thrown, result = .error thrown ∧ thrown.what? = none

variable {α : Type} {handler : String → Except Thrown α}

theorem catchStd_crashes (handled : ∀ what, ¬ Crashes (handler what)) (result : Except Thrown α)
    : Crashes (catchStd handler result) ↔ Crashes result := by
  cases result with
  | ok a => rfl
  | error thrown =>
    cases isStd : thrown.what? with
    | none => simp [catchStd, isStd]
    | some what =>
      rw [catchStd, isStd]
      refine iff_of_false (handled what) ?_
      rintro ⟨_, ⟨⟩, notStd⟩
      cases isStd.symm.trans notStd

theorem catchStd_returns (a : α) (result : Except Thrown α)
    : (∃ returned, catchStd (fun _ => .ok a) result = .ok returned) ↔ ¬ Crashes result := by
  cases result with
  | ok a => simp [catchStd, Crashes]
  | error thrown =>
    cases isStd : thrown.what? with
    | none => simp [catchStd, Crashes, isStd]
    | some what => simp [catchStd, Crashes, isStd]

theorem not_crashes_ok (a : α) : ¬ Crashes (.ok a) := by
  rintro ⟨_, ⟨⟩, _⟩

theorem crashes_bind {β result} {f : α → Except Thrown β} (calm : ∀ a, ¬ Crashes (f a))
    : Crashes (result >>= f) ↔ Crashes result := by
  cases result with
  | ok a => exact iff_of_false (calm a) (not_crashes_ok a)
  | error thrown => simp [Crashes, bind, Except.bind]

theorem nextWork_crashes (info : PrivatizerInfo) (work : PrivatizerWork) (answers : EndAnswers)
    : Crashes (info.nextWork work answers)
      ↔ work.workflow = .tToZ
        ∧ ∃ thrown, answers.newAddress = .error thrown ∧ thrown.what? = none := by
  unfold PrivatizerInfo.nextWork
  cases work.workflow with
  | tToZ => exact (crashes_bind fun _ => not_crashes_ok _).trans (by simp [Crashes])
  | zToZ => exact iff_of_false (not_crashes_ok _) (by simp)
  | zToT => exact iff_of_false (not_crashes_ok _) (by simp)

theorem onCompletedWork_crashes (info : PrivatizerInfo) (opid : String) (answers : EndAnswers)
    : Crashes (info.onCompletedWork opid answers)
      ↔ ∃ work thrown, info.workflows.find? (·.opid = opid) = some work
        ∧ work.workflow = .tToZ ∧ answers.newAddress = .error thrown ∧ thrown.what? = none := by
  rw [PrivatizerInfo.onCompletedWork, catchStd_crashes (by rintro what ⟨_, ⟨⟩, ⟨⟩⟩)]
  cases found : info.workflows.find? (·.opid = opid) with
  | none =>
    refine iff_of_false ?_ (by simp)
    rintro ⟨_, ⟨⟩, ⟨⟩⟩
  | some work =>
    refine (crashes_bind fun next => by cases next <;> exact not_crashes_ok _).trans ?_
    rw [nextWork_crashes]
    simp

theorem onFinishedZsendmany_returns (man : PrivatizerMan) (opid : String) (success : Bool)
    (answers : EndAnswers)
    : (∃ after, man.onFinishedZsendmany opid success answers = .ok after)
      ↔ ¬ Escapes man opid success answers := by
  refine (catchStd_returns man _).trans (not_congr ?_)
  unfold Escapes
  cases known : man.mapOpidPrivatizerId.lookup opid with
  | none => exact iff_of_false (not_crashes_ok man) (by simp)
  | some id =>
    dsimp only
    cases isEmpty : (man.getPrivatizer id "").empty with
    | true => exact iff_of_false (not_crashes_ok man) (by simp [isEmpty])
    | false =>
      cases success with
      | false =>
        refine iff_of_false ?_ (by simp)
        rintro ⟨_, ⟨⟩, ⟨⟩⟩
      | true =>
        refine (crashes_bind fun _ => not_crashes_ok _).trans ?_
        rw [onCompletedWork_crashes]
        simp [isEmpty]

theorem main_returns {operation : Operation} (going : operation.state ≠ .cancelled)
    (man : PrivatizerMan)
    : (∃ finished, operation.main man = .ok finished)
      ↔ ¬ Escapes man operation.id operation.succeeds operation.answers := by
  rw [← onFinishedZsendmany_returns, Operation.main, if_neg going]
  constructor
  · rintro ⟨finished, run⟩
    obtain ⟨after, callback, -⟩ := bind_ok.mp run
    exact ⟨after, callback⟩
  · rintro ⟨after, callback⟩
    exact ⟨_, bind_ok.mpr ⟨after, callback, rfl⟩⟩

/-- The callback returns, and with it `main` and the worker, unless `z_getnewaddress` throws a
JSON-RPC error in it.
-/
theorem callbacks_return_iff (man : PrivatizerMan)
    : (∀ opid success answers, (∃ after, man.onFinishedZsendmany opid success answers = .ok after)
        ↔ ¬ Escapes man opid success answers)
      ∧ ∀ operations, (∃ after, run man operations = .ok after) ↔ AllReturn man operations := by
  refine ⟨onFinishedZsendmany_returns man, fun operations => ?_⟩
  induction operations generalizing man with
  | nil => exact iff_of_true ⟨man, rfl⟩ trivial
  | cons taken operations ih =>
    cases taken with
    | none => exact ih man
    | some operation =>
      rw [run, AllReturn]
      split
      next => exact ih man
      next going =>
        rw [← main_returns going]
        constructor
        · rintro ⟨after, both⟩
          obtain ⟨finished, first, rest⟩ := bind_ok.mp both
          refine ⟨⟨finished, first⟩, fun other same => ?_⟩
          cases first.symm.trans same
          exact (ih _).mp ⟨after, rest⟩
        · rintro ⟨⟨finished, first⟩, later⟩
          obtain ⟨after, rest⟩ := (ih _).mpr (later finished first)
          exact ⟨after, bind_ok.mpr ⟨finished, first, rest⟩⟩

/-- A privatizer whose deposit is on its way to a shielded address. -/
def depositing : PrivatizerMan where
  mapPublicaddrPrivatizer := AList.singleton "public" {
    publicAddress := "public"
    privateAddress := "private"
    workflows := [⟨.tToZ, 100, "opid-1", "public", "z1", 350000000⟩] }
  mapOpidPrivatizerId := AList.singleton "opid-1" "public"

def walletLocked : Thrown :=
  .uniValue (-13) "Error: Please enter the wallet passphrase with walletpassphrase first."

/-- The wallet is locked while the operation runs: the error object ends the worker. -/
theorem callback_escapes
    : let answers := ⟨102, .error walletLocked, 0⟩
      depositing.onFinishedZsendmany "opid-1" true answers = .error walletLocked
      ∧ run depositing [some { id := "opid-1", mainImpl := .ok true, answers }]
        = .error walletLocked :=
  ⟨rfl, rfl⟩

end Resistance.Privatizer.Callbacks

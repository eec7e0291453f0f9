import Mathlib.Data.List.Basic

/-! An asynchronous operation that one thread runs and another one cancels. Both threads change its
state by single atomic loads and stores, which can come in any order.
-/

namespace Resistance.Async

inductive OperationStatus
  | ready
  | executing
  | cancelled
  | failed
  | success
  deriving DecidableEq

inductive OperationClass
  | base
  | sendmany
  | shieldcoinbase
  | mergetoaddress
  | saplingmigration
  deriving DecidableEq

/-- Where a worker is with the operation: before the check in `AsyncRPCQueue::run`, before the one
in `main`, before `EXECUTING` is stored, in `main_impl`, before its result is stored, or done.
-/
inductive Worker
  | taken
  | entered
  | checked
  | executing
  | ended (success : Bool)
  | returned
  deriving DecidableEq

/-- What `main_impl` does in its turn; an exception counts as a return without success. -/
inductive MainImpl
  | goOn
  | ret (success : Bool)

inductive Action
  | work (impl : MainImpl)
  -- the cancelling thread goes on, or calls the `cancel` of the given class
  | cancel (type : OperationClass)

/-- An operation; `sawReady` is set while `AsyncRPCOperation::cancel` is between its load and its
store.
-/
structure Operation where
  type : OperationClass
  status : OperationStatus
  worker : Worker
  sawReady : Bool
  deriving DecidableEq

namespace Operation

/-- A new operation when a worker has just taken it from the queue. -/
def new (type : OperationClass) : Operation := ⟨type, .ready, .taken, false⟩

def isCancelled (op : Operation) : Bool := op.status = .cancelled

/-- The next load or store of the worker. The classes differ in `main_impl` only: that of the base
class cannot fail, and that of the migration stops when it is cancelled, as a success.
-/
def work (op : Operation) (impl : MainImpl) : Operation :=
  match op.worker with
  | .taken => { op with worker := if op.isCancelled then .returned else .entered }
  | .entered => { op with worker := if op.isCancelled then .returned else .checked }
  | .checked => { op with status := .executing, worker := .executing }
  | .executing =>
    match impl with
    | .goOn =>
      if op.type = .saplingmigration ∧ op.isCancelled then { op with worker := .ended true } else op
    | .ret success => { op with worker := .ended (success || op.type = .base) }
  | .ended success =>
    { op with status := if success then .success else .failed, worker := .returned }
  | .returned => op

/-- Whether the turn of the cancelling thread stores `CANCELLED`. -/
def storesCancelled (op : Operation) (type : OperationClass) : Bool :=
  op.sawReady || (type = .saplingmigration && op.type = .saplingmigration)

/-- The next load or store of the cancelling thread. `cancel` is not virtual in the base class, so
that the migration's own one, which does not look at the state, needs a pointer of its class.
-/
def cancel (op : Operation) (type : OperationClass) : Operation :=
  if op.storesCancelled type then { op with status := .cancelled, sawReady := false }
  else { op with sawReady := op.status = .ready }

def step (op : Operation) : Action → Operation
  | .work impl => op.work impl
  | .cancel type => op.cancel type

def run (op : Operation) (actions : List Action) : Operation := actions.foldl step op

/-- The worker is past the last place where `main` itself looks for a cancellation. When it
returned there, the operation is still cancelled.
-/
def pastCheck (op : Operation) : Bool :=
  match op.worker with
  | .taken | .entered => false
  | .returned => !op.isCancelled
  | _ => true

/-- No `CANCELLED` is stored when the worker is past the check. -/
def CancelledInTime (op : Operation) : List Action → Prop
  | [] => True
  | .work impl :: rest => CancelledInTime (op.work impl) rest
  | .cancel type :: rest =>
    (op.pastCheck → ¬ op.storesCancelled type) ∧ CancelledInTime (op.cancel type) rest

/-- The states in which a worker can be while the operation has a status. -/
def Orderly (op : Operation) : Prop :=
  match op.worker with
  | .taken | .entered => op.status = .ready ∨ op.status = .cancelled
  | .checked => op.status = .ready
  | .executing | .ended _ => op.status = .executing
  | .returned => op.status = .cancelled ∨ op.status = .success ∨ op.status = .failed

/-- The operation is being executed, or it was and has not been cancelled since. -/
def Started (op : Operation) : Prop :=
  match op.worker with
  | .taken | .entered | .checked => False
  | .executing | .ended _ => True
  | .returned => op.status ≠ .cancelled

/-- What `after` keeps of an operation when the cancellations come in time. -/
structure Keeps (before after : Operation) : Prop where
  orderly : after.Orderly
  cancelled : before.status = .cancelled → after.status = .cancelled
  started : before.Started → after.Started

variable {op : Operation}

theorem Keeps.work (orderly : op.Orderly) (impl : MainImpl) : Keeps op (op.work impl) := by
  obtain ⟨type, status, worker, sawReady⟩ := op
  cases worker <;> cases impl <;> cases status
    <;> grind [Orderly, Operation.work, Started, isCancelled, Keeps]

theorem Keeps.cancel {type} (orderly : op.Orderly)
    (inTime : op.pastCheck → ¬ op.storesCancelled type) : Keeps op (op.cancel type) := by
  unfold Operation.cancel
  by_cases stores : op.storesCancelled type
  · rw [if_pos stores]
    refine ⟨?_, fun _ => rfl, ?_⟩ <;> grind [Orderly, Started, pastCheck, isCancelled]
  · rw [if_neg stores]
    exact ⟨orderly, id, id⟩

theorem Keeps.run {actions} (orderly : op.Orderly)
    (inTime : op.CancelledInTime actions) : Keeps op (op.run actions) := by
  induction actions generalizing op with
  | nil => exact ⟨orderly, id, id⟩
  | cons action rest ih =>
    obtain ⟨first, later⟩ : Keeps op (op.step action) ∧ (op.step action).CancelledInTime rest := by
      cases action with
      | work impl => exact ⟨.work orderly impl, inTime⟩
      | cancel type => exact ⟨.cancel orderly inTime.1, inTime.2⟩
    have further := ih first.orderly later
    exact ⟨further.orderly, further.cancelled ∘ first.cancelled, further.started ∘ first.started⟩

theorem CancelledInTime.split {before after} (inTime : op.CancelledInTime (before ++ after))
    : op.CancelledInTime before ∧ (op.run before).CancelledInTime after := by
  induction before generalizing op with
  | nil => exact ⟨trivial, inTime⟩
  | cons action rest ih =>
    cases action with
    | work impl => exact ih inTime
    | cancel type =>
      obtain ⟨first, later⟩ := ih inTime.2
      exact ⟨⟨inTime.1, first⟩, later⟩

/-- When no `CANCELLED` is stored past the check of `main`, a cancelled operation is not executed
any more, and one that is executing ends with its result, which takes two more turns of the worker
when `main_impl` returns.
-/
theorem cancelled_not_run (type : OperationClass) (before after : List Action)
    (inTime : (new type).CancelledInTime (before ++ after))
    : (((new type).run before).status = .cancelled
        → ((new type).run (before ++ after)).status ≠ .executing
          ∧ ((new type).run (before ++ after)).status ≠ .success)
      ∧ (((new type).run before).worker = .executing
        → (((new type).run (before ++ after)).worker = .returned
            → ((new type).run (before ++ after)).status = .success
              ∨ ((new type).run (before ++ after)).status = .failed)
          ∧ ∀ success, ((new type).run (before ++ [.work (.ret success), .work .goOn])).worker
              = .returned) := by
  obtain ⟨early, late⟩ := inTime.split
  have first : Keeps (new type) ((new type).run before) := .run (.inl rfl) early
  have further := Keeps.run first.orderly late
  simp only [run, List.foldl_append] at further ⊢
  refine ⟨fun cancelled => ?_, fun executing => ⟨fun returned => ?_, fun success => ?_⟩⟩
  · rw [further.cancelled cancelled]
    decide
  · have started := further.started (by simp [Started, executing])
    have orderly := further.orderly
    simp only [Started, Orderly, returned] at started orderly
    exact orderly.resolve_left started
  · simp [step, work, executing]

theorem cancelled_not_run_sendmany
    : ((new .sendmany).run [.cancel .base, .cancel .base, .work .goOn]).status ≠ .executing :=
  ((cancelled_not_run .sendmany [.cancel .base, .cancel .base] [.work .goOn]
    ⟨by decide, by decide, trivial⟩).1 rfl).1

/-- `CANCELLED` is overwritten when it is stored between the check and `EXECUTING`, and by every
operation of the migration that is cancelled through its own class.
-/
theorem cancelled_then_success
    : ((new .sendmany).run [.work .goOn, .cancel .base, .work .goOn, .cancel .base]).status
        = .cancelled
      ∧ ((new .sendmany).run [.work .goOn, .cancel .base, .work .goOn, .cancel .base,
          .work .goOn, .work (.ret true), .work .goOn]).status = .success
      ∧ ((new .saplingmigration).run [.work .goOn, .work .goOn, .work .goOn,
          .cancel .saplingmigration]).status = .cancelled
      ∧ ((new .saplingmigration).run [.work .goOn, .work .goOn, .work .goOn,
          .cancel .saplingmigration, .work .goOn, .work .goOn]).status = .success := by
  decide

end Operation

end Resistance.Async

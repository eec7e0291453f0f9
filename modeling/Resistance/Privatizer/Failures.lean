import Resistance.Privatizer.Conservation

/-! What happens to a privatizer when a `z_sendmany` fails: nothing. Its work keeps the id of the
failed operation, so it is neither started again nor dropped.
-/

namespace Resistance.Privatizer

open List Lib Lib.Checks PrivatizerMan

namespace PrivatizerMan

/-- A work of the privatizer has the id of the operation. -/
def Carries (man : PrivatizerMan) (id opid : String) : Prop :=
  ∃ info, man.mapPublicaddrPrivatizer.lookup id = some info
    ∧ ∃ work ∈ info.workflows, work.opid = opid

/-- The operation was started and later reported as finished. -/
def Finished (man : PrivatizerMan) (events : List Event) (opid : String) : Prop :=
  ∃ before success answers after, events = before ++ .finished opid success answers :: after
    ∧ ∃ sendmany ∈ (man.run before).2, sendmany.work.opid = opid

/-- After every failure the work is free again, and only operations that have not finished are
remembered.
-/
structure Unblocked (man : PrivatizerMan) (events : List Event) : Prop where
  freed : ∀ before answers after opid id, events = before ++ .finished opid false answers :: after
    → (man.run before).1.mapOpidPrivatizerId.lookup opid = some id
    → ∀ returned, (man.run before).1.onFinishedZsendmany opid false answers = .ok returned
    → ¬ returned.Carries id opid
  unfinished : ∀ opid, ((man.run events).1.mapOpidPrivatizerId.lookup opid).isSome = true
    → ¬ man.Finished events opid

variable {man : PrivatizerMan}

theorem run_append (before after : List Event)
    : (man.run (before ++ after)).1 = ((man.run before).1.run after).1
      ∧ (man.run (before ++ after)).2
        = (man.run before).2 ++ ((man.run before).1.run after).2 := by
  induction before generalizing man with
  | nil => exact ⟨rfl, rfl⟩
  | cons event before ih =>
    obtain ⟨state, log⟩ := @ih (man.step event).1
    refine ⟨state, ?_⟩
    simp only [cons_append, run, log, append_assoc]

theorem mapOpid_visitDeposit (info : PrivatizerInfo) (answers : Answers)
    : (man.visitDeposit info answers).mapOpidPrivatizerId = man.mapOpidPrivatizerId := by
  rcases man.visitDeposit_cases info answers with same | ⟨changed, _, stored⟩
  · rw [same]
  · rw [stored]
    rfl

/-- Exactly the operations that a step has started are new. -/
theorem mapOpid_step (event : Event) (opid : String)
    : ((man.step event).1.mapOpidPrivatizerId.lookup opid).isSome = true
      ↔ (man.mapOpidPrivatizerId.lookup opid).isSome = true
        ∨ ∃ sendmany ∈ (man.step event).2, sendmany.work.opid = opid := by
  cases event with
  | visit publicAddress privateAddress answers =>
    rw [step]
    rcases man.visit_cases publicAddress privateAddress answers with
      same | ⟨info, _, deposit⟩ | ⟨info, changed, sendmany, _, _, started⟩
    · simp [same]
    · simp [deposit, mapOpid_visitDeposit]
    rw [started, mapOpid_visitDeposit, PrivatizerMan.started]
    by_cases same : opid = sendmany.work.opid
    · subst same
      simp
    · simp [AList.lookup_insert_ne same, Ne.symm same]
  | finished ended success answers =>
    rw [step]
    rcases man.onFinishedZsendmany_cases ended success answers with
      same | ⟨_, _, changed, _, _, _, _, stored⟩
    · simp [same]
    · simp [stored, store]

theorem mapOpid_run (events : List Event) (opid : String)
    : ((man.run events).1.mapOpidPrivatizerId.lookup opid).isSome = true
      ↔ (man.mapOpidPrivatizerId.lookup opid).isSome = true
        ∨ ∃ sendmany ∈ (man.run events).2, sendmany.work.opid = opid := by
  induction events generalizing man with
  | nil => simp [run]
  | cons event events ih =>
    rw [run, ih, mapOpid_step]
    grind

/-- Privatizers are stored under their public address, and the operation is carried by a work of
the privatizer that it is remembered for.
-/
structure Holds (man : PrivatizerMan) (opid : String) : Prop where
  keyed : ∀ publicAddress info, man.mapPublicaddrPrivatizer.lookup publicAddress = some info
    → info.publicAddress = publicAddress
  carried : ∀ id, man.mapOpidPrivatizerId.lookup opid = some id → man.Carries id opid

namespace Holds

variable {opid publicAddress : String} {info : PrivatizerInfo}

section

variable (holds : man.Holds opid)
include holds

section

variable (found : man.mapPublicaddrPrivatizer.lookup publicAddress = some info)
include found

/-- A privatizer changes its works, but keeps those with the operation. -/
theorem change {workflows} {next : PrivatizerMan}
    (keeps : ∀ work ∈ info.workflows, work.opid = opid → work ∈ workflows)
    (stored : next.mapPublicaddrPrivatizer
      = man.mapPublicaddrPrivatizer.insert info.publicAddress { info with workflows })
    (remembered : ∀ id, next.mapOpidPrivatizerId.lookup opid = some id
      → man.mapOpidPrivatizerId.lookup opid = some id
        ∨ id = info.publicAddress ∧ ∃ work ∈ workflows, work.opid = opid)
    : next.Holds opid := by
  have key := holds.keyed publicAddress info found
  have here : next.mapPublicaddrPrivatizer.lookup info.publicAddress
      = some { info with workflows } := by
    rw [stored, AList.lookup_insert]
  constructor
  · intro other item there
    rw [stored] at there
    rcases FiniteMap.lookup_insert_cases there with ⟨rfl, rfl⟩ | ⟨-, before⟩
    · rfl
    · exact holds.keyed other item before
  · intro id known
    rcases remembered id known with before | ⟨rfl, carried⟩
    · obtain ⟨item, there, work, mem, isOpid⟩ := holds.carried id before
      by_cases same : id = info.publicAddress
      · rw [same, key, found] at there
        cases there
        exact ⟨_, same ▸ here, work, keeps work mem isOpid, isOpid⟩
      · rw [← AList.lookup_insert_ne same, ← stored] at there
        exact ⟨item, there, work, mem, isOpid⟩
    · exact ⟨_, here, carried⟩

theorem visitDeposit (answers : Answers)
    : (man.visitDeposit info answers).Holds opid := by
  rcases man.visitDeposit_cases info answers with same | ⟨changed, deposit, stored⟩
  · rw [same]
    exact holds
  · obtain ⟨work, rfl, _⟩ := checkNewDeposit_some deposit
    rw [stored]
    exact holds.change found (fun _ mem _ => mem_append_left _ mem) rfl fun id => .inl

end

theorem step (named : opid ≠ "") {event : Event}
    (unsuccessful : ∀ answers, event ≠ .finished opid true answers)
    : (man.step event).1.Holds opid := by
  cases event with
  | visit publicAddress privateAddress answers =>
    rw [PrivatizerMan.step]
    rcases man.visit_cases publicAddress privateAddress answers with
      same | ⟨info, found, deposit⟩ | ⟨info, changed, sendmany, found, pending, started⟩
    · rw [same]
      exact holds
    · rw [deposit]
      exact holds.visitDeposit found answers
    obtain ⟨before, work, after, split, rfl, waiting, _⟩ := checkPendingWork_some pending
    have next : (man.started { info with workflows := before ++ sendmany.work :: after }
        sendmany).Holds opid := by
      refine holds.change found ?_ rfl ?_
      · intro other mem isOpid
        rw [split, mem_append, mem_cons] at mem
        rcases mem with earlier | rfl | later
        · simp [earlier]
        · exact absurd (isOpid.symm.trans waiting) named
        · simp [later]
      · intro id known
        rcases FiniteMap.lookup_insert_cases known with ⟨rfl, rfl⟩ | ⟨-, before⟩
        · exact .inr ⟨rfl, sendmany.work, by simp, rfl⟩
        · exact .inl before
    rw [started]
    exact next.visitDeposit (lookup_store (holds.keyed publicAddress info found)) answers
  | finished ended success answers =>
    rw [PrivatizerMan.step]
    rcases man.onFinishedZsendmany_cases ended success answers with
      same | ⟨id, info, changed, _, found, rfl, completed, stored⟩
    · rw [same]
      exact holds
    obtain ⟨before, work, after, next, split, isEnded, _, rfl⟩ := onCompletedWork_ok completed
    rw [stored]
    refine holds.change found ?_ rfl fun id => .inl
    intro other mem isOpid
    rw [split, mem_append, mem_cons] at mem
    rcases mem with earlier | rfl | later
    · simp [earlier]
    · exact absurd (by rw [← isEnded, isOpid]) (unsuccessful answers)
    · simp [later]

theorem run (named : opid ≠ "") {events}
    (unsuccessful : ∀ answers, .finished opid true answers ∉ events)
    : (man.run events).1.Holds opid := by
  induction events generalizing man with
  | nil => exact holds
  | cons event events ih =>
    refine ih (holds.step named ?_) ?_
    · rintro answers rfl
      exact unsuccessful answers mem_cons_self
    · intro answers mem
      exact unsuccessful answers (mem_cons_of_mem _ mem)

end

end Holds

/-- No failure is cleaned up: a run leaves privatizers unblocked only if none of their operations
has finished, and an operation that fails without having succeeded before leaves its work in place
with its id, in a manager that is the same as before.
-/
theorem unblocked_iff (registered : man.Registered) (events : List Event)
    : (man.Unblocked events ↔ ∀ opid, ¬ man.Finished events opid)
      ∧ ∀ opid id answers, (man.run events).1.mapOpidPrivatizerId.lookup opid = some id
        → (∀ answers, .finished opid true answers ∉ events)
        → (man.run events).1.onFinishedZsendmany opid false answers = .ok (man.run events).1
          ∧ (man.run events).1.Carries id opid := by
  have started : ∀ events opid,
      ((man.run events).1.mapOpidPrivatizerId.lookup opid).isSome = true
        ↔ ∃ sendmany ∈ (man.run events).2, sendmany.work.opid = opid := by
    intro events opid
    rw [mapOpid_run, registered.idle]
    simp
  refine ⟨⟨?_, ?_⟩, ?_⟩
  · rintro ⟨_, unfinished⟩ opid finished
    refine unfinished opid ?_ finished
    obtain ⟨before, success, answers, after, rfl, sendmany, mem, isOpid⟩ := finished
    rw [started, (run_append _ _).2]
    exact ⟨sendmany, mem_append_left _ mem, isOpid⟩
  · intro none
    refine ⟨?_, fun opid _ => none opid⟩
    rintro before answers after opid id rfl known
    have sent := (started before opid).mp (by rw [known]; rfl)
    exact absurd ⟨before, false, answers, after, rfl, sent⟩ (none opid)
  · intro opid id answers known unsuccessful
    obtain ⟨chains, accounts⟩ := (accounts_registered registered).run events
    have named := accounts.named opid id known
    have start : man.Holds opid := by
      refine ⟨fun publicAddress info found => (registered.keyed publicAddress info found).1, ?_⟩
      rw [registered.idle]
      exact nofun
    exact ⟨onFinishedZsendmany_failed opid answers, (start.run named unsuccessful).carried id known⟩

end PrivatizerMan

/-- A deposit is sent, and the operation fails. -/
def failedDeposit : List Event :=
  [deposited 500000000, begun 100 500000000 "a", ended "a" false]

theorem failedDeposit_unblocked_iff
    : onePrivatizer.Unblocked failedDeposit
      ↔ ∀ opid, ¬ onePrivatizer.Finished failedDeposit opid :=
  (unblocked_iff registered_onePrivatizer failedDeposit).1

/-- The work of a failed operation keeps its id, the operation is still remembered, and a later
deposit to the public address is not picked up.
-/
theorem failedDeposit_blocks
    : ¬ onePrivatizer.Unblocked failedDeposit
      ∧ (onePrivatizer.run failedDeposit).1.Carries "public" "opid-a"
      ∧ (onePrivatizer.run failedDeposit).1.mapOpidPrivatizerId.lookup "opid-a" = some "public"
      ∧ ((onePrivatizer.run (failedDeposit ++ [deposited 900000000])).1.getPrivatizer "public"
          "").workflows
        = ((onePrivatizer.run failedDeposit).1.getPrivatizer "public" "").workflows := by
  have carries : (onePrivatizer.run failedDeposit).1.Carries "public" "opid-a" :=
    ⟨_, rfl, _, mem_singleton_self _, rfl⟩
  refine ⟨?_, carries, rfl, by decide +kernel⟩
  intro unblocked
  exact unblocked.freed [deposited 500000000, begun 100 500000000 "a"] _ [] "opid-a" "public" rfl
    rfl _ rfl carries

end Resistance.Privatizer

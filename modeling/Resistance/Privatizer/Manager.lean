import Resistance.Consensus.Amount
import Resistance.Lib.FiniteMap

/-! The privatizer of `privatizer.cpp`: deposits to a public address are sent on to a private one
through two shielded addresses, each step by a `z_sendmany` that reports back when it has finished.
What the wallet, the chain and the random source answer are inputs of each event.
-/

namespace Resistance.Privatizer

open Lib Lib.Checks

def privatizerMaxCount : Nat := 10
def privatizerMinWorkAmount : Int := Consensus.coin.toInt
def privatizerTxFee : Int := 10000
def privatizerMinDelayTToZ : Nat := 0
def privatizerMaxDelayTToZ : Nat := 0
def privatizerMinDelayZToZ : Nat := 2
def privatizerMaxDelayZToZ : Nat := 6
def privatizerMinDelayZToT : Nat := 2
def privatizerMaxDelayZToT : Nat := 6

/-- `GetRand` of the last number that the random source gave. -/
def getRand (nRand nMax : Nat) : Nat := if nMax = 0 then 0 else nRand % nMax

/-- What is thrown. JSON-RPC errors are thrown as a `UniValue`, which is not a `std::exception`. -/
inductive Thrown where
  | runtimeError (what : String)
  | logicError (what : String)
  | exception (what : String)
  | uniValue (code : Int) (message : String)
  | other
  deriving DecidableEq

/-- `e.what()` of a `std::exception`. -/
def Thrown.what? : Thrown → Option String
  | .runtimeError what | .logicError what | .exception what => some what
  | .uniValue _ _ | .other => none

/-- `catch (const std::exception& e)`. -/
def catchStd {α : Type} (handler : String → Except Thrown α) : Except Thrown α → Except Thrown α
  | .ok a => .ok a
  | .error thrown =>
    match thrown.what? with
    | some what => handler what
    | none => .error thrown

inductive Workflow where
  | tToZ
  | zToZ
  | zToT
  deriving DecidableEq

/-- A work item. -/
structure PrivatizerWork where
  workflow : Workflow
  /-- This work will be proceeded after height. -/
  startHeight : Int
  opid : String := ""
  srcAddress : String
  destAddress : String
  amount : Int
  deriving DecidableEq

/-- A `z_sendmany` that was started: the work with the id of the operation, the balance that was
read and the outputs that were asked for.
-/
structure Sendmany where
  work : PrivatizerWork
  realAmount : Int
  dests : List (String × Int)
  deriving DecidableEq

namespace PrivatizerWork

def isReady (work : PrivatizerWork) (height : Int) : Bool :=
  if height < work.startHeight then false else work.opid.isEmpty

/-- `Start`: `none` where it returns `false`. The wallet gives the balance of the source address
and the unique part of the id of the operation, or throws.
-/
def start (work : PrivatizerWork) (balance : Except String Int) (zSendmany : Except String String)
    : Except String (Option Sendmany) := do
  let realAmount ← balance
  if realAmount < work.amount then return none
  let restAmount := realAmount - work.amount
  let dests := (work.destAddress, work.amount - privatizerTxFee)
    :: if restAmount > 0 then [(work.srcAddress, restAmount)] else []
  let uuid ← zSendmany
  return some { work := { work with opid := "opid-" ++ uuid }, realAmount, dests }

end PrivatizerWork

structure PrivatizerInfo where
  publicAddress : String := ""
  privateAddress : String := ""
  workflows : List PrivatizerWork := []
  deriving DecidableEq

/-- The answers that one visit of a privatizer gets: for each of its works the balance of the
source address and the result of `z_sendmany`, and then those for a new deposit.
-/
structure Answers where
  height : Int
  balance : Nat → Except String Int
  zSendmany : Nat → Except String String
  deposit : Except String Int
  newAddress : Except String String
  nRand : Nat

/-- The answers that the end of an operation gets; `z_getnewaddress` may throw anything. -/
structure EndAnswers where
  height : Int
  newAddress : Except Thrown String
  nRand : Nat

def getStartHeight (height : Int) (min max nRand : Nat) : Int :=
  height + getRand nRand (max - min) + min

/-- `work.IsReady(height) && work.Start()` for the `i`-th work. -/
def startReady (answers : Answers) (i : Nat) (work : PrivatizerWork)
    : Except String (Option Sendmany) :=
  if work.isReady answers.height then work.start (answers.balance i) (answers.zSendmany i)
  else return none

/-- The loop of `CheckPendingWork` from the `i`-th work on. -/
def checkWorks (answers : Answers)
    : Nat → List PrivatizerWork → Except String (Option (List PrivatizerWork × Sendmany))
  | _, [] => return none
  | i, work :: workflows => do
    match ← startReady answers i work with
    | some sendmany => return some (sendmany.work :: workflows, sendmany)
    | none =>
      let later ← checkWorks answers (i + 1) workflows
      return later.map fun found => (work :: found.1, found.2)

namespace PrivatizerInfo

def empty (info : PrivatizerInfo) : Bool := info.publicAddress.isEmpty

def isPendingDeposit (info : PrivatizerInfo) : Bool :=
  info.workflows.any (·.workflow = .tToZ)

def reserveWork (info : PrivatizerInfo) (work : PrivatizerWork) : PrivatizerInfo :=
  { info with workflows := info.workflows ++ [work] }

/-- The text of the errors that are logged. -/
def error (info : PrivatizerInfo) (func what : String) : String :=
  func ++ ": Error: (" ++ info.publicAddress ++ " -> " ++ info.privateAddress ++ ") " ++ what

/-- `CheckNewDeposit`: `none` where it returns `false`. -/
def checkNewDeposit (info : PrivatizerInfo) (answers : Answers)
    : Except String (Option PrivatizerInfo) :=
  Except.mapError (info.error "CheckNewDeposit") do
    if info.isPendingDeposit then return none
    let amount ← answers.deposit
    if amount < privatizerMinWorkAmount then return none
    let destAddress ← answers.newAddress
    return some (info.reserveWork {
      workflow := .tToZ
      startHeight := getStartHeight answers.height privatizerMinDelayTToZ privatizerMaxDelayTToZ
        answers.nRand
      srcAddress := info.publicAddress
      destAddress
      amount := getRand answers.nRand (amount - privatizerMinWorkAmount + 1).toNat
        + privatizerMinWorkAmount })

/-- `CheckPendingWork`: `none` where it returns `false`. -/
def checkPendingWork (info : PrivatizerInfo) (answers : Answers)
    : Except String (Option (PrivatizerInfo × Sendmany)) :=
  Except.mapError (info.error "CheckPendingWork") do
    let found ← checkWorks answers 0 info.workflows
    return found.map fun (workflows, sendmany) => ({ info with workflows }, sendmany)

/-- The work after a completed one, unless that was the last. -/
def nextWork (info : PrivatizerInfo) (work : PrivatizerWork) (answers : EndAnswers)
    : Except Thrown (Option PrivatizerWork) :=
  match work.workflow with
  | .tToZ => do
    return some {
      workflow := .zToZ
      startHeight := getStartHeight answers.height privatizerMinDelayZToZ privatizerMaxDelayZToZ
        answers.nRand
      srcAddress := work.destAddress
      destAddress := ← answers.newAddress
      amount := work.amount - privatizerTxFee }
  | .zToZ =>
    return some {
      workflow := .zToT
      startHeight := getStartHeight answers.height privatizerMinDelayZToT privatizerMaxDelayZToT
        answers.nRand
      srcAddress := work.destAddress
      destAddress := info.privateAddress
      amount := work.amount - privatizerTxFee }
  | .zToT => return none

def onCompletedWork (info : PrivatizerInfo) (opid : String) (answers : EndAnswers)
    : Except Thrown PrivatizerInfo :=
  catchStd (fun what => throw (.runtimeError
      (info.error "OnCompletedWork" ("opid " ++ opid ++ " " ++ what)))) do
    match info.workflows.find? (·.opid = opid) with
    | none => throw (.runtimeError "Could not find")
    | some work =>
      let rest := { info with workflows := info.workflows.eraseP (·.opid = opid) }
      match ← info.nextWork work answers with
      | none => return rest
      | some next => return rest.reserveWork next

end PrivatizerInfo

structure PrivatizerMan where
  /-- Privatizer item table, PublicAddress to Privatizer. -/
  mapPublicaddrPrivatizer : FiniteMap String PrivatizerInfo := ∅
  /-- Map PrivateAddress to PrivatizerId. -/
  mapPrivateaddrPrivatizerId : FiniteMap String String := ∅
  /-- Map Opid to PrivatizerId/PublicAddress. -/
  mapOpidPrivatizerId : FiniteMap String String := ∅

namespace PrivatizerMan

def getPrivatizer (man : PrivatizerMan) (publicAddress privateAddress : String)
    : PrivatizerInfo :=
  match man.mapPublicaddrPrivatizer.lookup publicAddress with
  | some item =>
    if privateAddress.isEmpty || privateAddress = item.privateAddress then item else {}
  | none => {}

/-- `mapPublicaddrPrivatizer[info.publicAddress] = info`. -/
def store (man : PrivatizerMan) (info : PrivatizerInfo) : PrivatizerMan :=
  { man with
    mapPublicaddrPrivatizer := man.mapPublicaddrPrivatizer.insert info.publicAddress info }

/-- What the wallet says of an address. -/
structure Addresses where
  isValidDestination : String → Bool
  isMineSpendable : String → Bool
  sameDestination : String → String → Bool

def addPrivatizer (man : PrivatizerMan) (wallet : Addresses)
    (publicAddress privateAddress : String) (overwrite : Bool) : Except String PrivatizerMan := do
  throwIf (man.mapPublicaddrPrivatizer.entries.length ≥ privatizerMaxCount)
    "Could not add privatizer since it has already maximum"
  throwIf (! wallet.isValidDestination publicAddress) "publicAddress should be taddr"
  throwIf (! wallet.isMineSpendable publicAddress) "publicAddress should be mine"
  throwIf (! wallet.isValidDestination privateAddress) "privateAddress should be taddr"
  throwIf (wallet.sameDestination publicAddress privateAddress)
    "publicAddress and privateAddress could not be same"
  throwIf (man.mapPrivateaddrPrivatizerId.lookup publicAddress).isSome
    "publicAddress does already exist as privateAddress"
  throwIf (! (man.getPrivatizer privateAddress "").empty)
    "privateAddress does already exist as publicAddress"
  let item := man.getPrivatizer publicAddress ""
  throwIf (! item.empty && ! overwrite) "Exists already"
  if ! item.empty && item.privateAddress = privateAddress then return man
  else
    let man := man.store { item with publicAddress, privateAddress }
    return { man with
      mapPrivateaddrPrivatizerId :=
        man.mapPrivateaddrPrivatizerId.insert privateAddress publicAddress }

def onFinishedZsendmany (man : PrivatizerMan) (opid : String) (success : Bool)
    (answers : EndAnswers) : Except Thrown PrivatizerMan :=
  -- The error is logged.
  catchStd (fun _ => return man) do
    match man.mapOpidPrivatizerId.lookup opid with
    | none => return man
    | some id =>
      let item := man.getPrivatizer id ""
      if item.empty then return man
      else if ! success then
        throw (.runtimeError (item.error "OnFinishedZsendmany" ("failed opid " ++ opid)))
      else return man.store (← item.onCompletedWork opid answers)

/-- `Run` has started the operation of a work. -/
def started (man : PrivatizerMan) (info : PrivatizerInfo) (sendmany : Sendmany)
    : PrivatizerMan :=
  { man.store info with
    mapOpidPrivatizerId := man.mapOpidPrivatizerId.insert sendmany.work.opid info.publicAddress }

/-- The second half of the loop body of `Run`. -/
def visitDeposit (man : PrivatizerMan) (info : PrivatizerInfo) (answers : Answers)
    : PrivatizerMan :=
  match info.checkNewDeposit answers with
  | .ok (some info) => man.store info
  | _ => man

/-- The loop body of `Run` for one privatizer, with the `z_sendmany` that it started. Exceptions
are logged.
-/
def visit (man : PrivatizerMan) (publicAddress privateAddress : String) (answers : Answers)
    : PrivatizerMan × List Sendmany :=
  let info := man.getPrivatizer publicAddress privateAddress
  if info.empty then (man, [])
  else
    match info.checkPendingWork answers with
    | .error _ => (man, [])
    | .ok none => (man.visitDeposit info answers, [])
    | .ok (some (info, sendmany)) =>
      ((man.started info sendmany).visitDeposit info answers, [sendmany])

/-- What happens to the manager: `Run` comes by a privatizer, or an operation has finished. -/
inductive Event where
  | visit (publicAddress privateAddress : String) (answers : Answers)
  | finished (opid : String) (success : Bool) (answers : EndAnswers)

def step (man : PrivatizerMan) : Event → PrivatizerMan × List Sendmany
  | .visit publicAddress privateAddress answers => man.visit publicAddress privateAddress answers
  -- What the callback throws ends its worker, and leaves the manager as it was.
  | .finished opid success answers =>
    ((man.onFinishedZsendmany opid success answers).toOption.getD man, [])

/-- A run, with every `z_sendmany` that it started. -/
def run : PrivatizerMan → List Event → PrivatizerMan × List Sendmany
  | man, [] => (man, [])
  | man, event :: events =>
    let next := man.step event
    let rest := next.1.run events
    (rest.1, next.2 ++ rest.2)

/-- Privatizers have been added, and nothing has happened to them yet. -/
structure Registered (man : PrivatizerMan) : Prop where
  keyed : ∀ publicAddress info, man.mapPublicaddrPrivatizer.lookup publicAddress = some info
    → info.publicAddress = publicAddress ∧ info.workflows = []
  idle : man.mapOpidPrivatizerId = ∅

end PrivatizerMan

/-- What a work that was started asks for: the payment, and the rest back to the source. -/
structure Sendmany.Spends (sendmany : Sendmany) (work : PrivatizerWork) : Prop where
  sent : ∃ uuid, sendmany.work = { work with opid := "opid-" ++ uuid }
  covered : work.amount ≤ sendmany.realAmount
  dests : sendmany.dests = (work.destAddress, work.amount - privatizerTxFee)
    :: if sendmany.realAmount - work.amount > 0 then
        [(work.srcAddress, sendmany.realAmount - work.amount)] else []

variable {sendmany : Sendmany} {answers : Answers} {info changed : PrivatizerInfo}

theorem PrivatizerMan.lookup_store {man : PrivatizerMan} {publicAddress}
    (key : info.publicAddress = publicAddress)
    : (man.store info).mapPublicaddrPrivatizer.lookup publicAddress = some info :=
  key ▸ AList.lookup_insert _

theorem start_some {work balance zSendmany}
    (run : work.start balance zSendmany = .ok (some sendmany))
    : sendmany.Spends work := by
  obtain ⟨realAmount, _, run⟩ := bind_ok.mp run
  split at run
  next => cases run
  next covered =>
    obtain ⟨uuid, _, run⟩ := bind_ok.mp run
    cases run
    exact ⟨⟨uuid, rfl⟩, Int.not_lt.mp covered, rfl⟩

/-- `CheckPendingWork` starts one of the works that have no operation yet, in its place. -/
theorem checkWorks_some {i} {workflows changed}
    (run : checkWorks answers i workflows = .ok (some (changed, sendmany)))
    : ∃ before work after, workflows = before ++ work :: after
      ∧ changed = before ++ sendmany.work :: after ∧ work.opid = "" ∧ sendmany.Spends work := by
  induction workflows generalizing i changed with
  | nil => cases run
  | cons work workflows ih =>
    obtain ⟨started, tried, run⟩ := bind_ok.mp run
    cases started with
    | some found =>
      cases run
      unfold startReady at tried
      split at tried
      next ready =>
        refine ⟨[], work, workflows, rfl, rfl, ?_, start_some tried⟩
        unfold PrivatizerWork.isReady at ready
        split at ready
        · cases ready
        · simpa using ready
      next => cases tried
    | none =>
      obtain ⟨later, rest, run⟩ := bind_ok.mp run
      cases later with
      | none => cases run
      | some found =>
        cases run
        obtain ⟨before, first, after, split, changed, ready, spends⟩ := ih rest
        exact ⟨work :: before, first, after, by rw [split]; rfl, by rw [changed]; rfl, ready,
          spends⟩

theorem checkPendingWork_some (run : info.checkPendingWork answers = .ok (some (changed, sendmany)))
    : ∃ before work after, info.workflows = before ++ work :: after
      ∧ changed = { info with workflows := before ++ sendmany.work :: after }
      ∧ work.opid = "" ∧ sendmany.Spends work := by
  rw [PrivatizerInfo.checkPendingWork, mapError_ok] at run
  obtain ⟨found, works, run⟩ := bind_ok.mp run
  cases found with
  | none => cases run
  | some found =>
    cases run
    obtain ⟨before, work, after, split, changed, ready, spends⟩ := checkWorks_some works
    exact ⟨before, work, after, split, by rw [← changed], ready, spends⟩

/-- A new deposit gives a work of at least the minimal amount that spends from the public
address.
-/
theorem checkNewDeposit_some (run : info.checkNewDeposit answers = .ok (some changed))
    : ∃ work : PrivatizerWork, changed = info.reserveWork work ∧ work.opid = ""
      ∧ work.workflow = .tToZ ∧ work.srcAddress = info.publicAddress
      ∧ privatizerMinWorkAmount ≤ work.amount := by
  rw [PrivatizerInfo.checkNewDeposit, mapError_ok] at run
  split at run
  next => cases run
  next =>
    obtain ⟨amount, _, run⟩ := bind_ok.mp run
    split at run
    next => cases run
    next =>
      obtain ⟨destAddress, _, run⟩ := bind_ok.mp run
      cases run
      refine ⟨_, rfl, rfl, rfl, rfl, ?_⟩
      simp only
      omega

theorem catchStd_ok {α} {error : String → Thrown} {result : Except Thrown α} {a}
    (run : catchStd (fun what => throw (error what)) result = .ok a)
    : result = .ok a := by
  cases result with
  | ok => exact run
  | error thrown => cases thrown <;> cases run

/-- The completed work is replaced by the next one, at the end. -/
theorem onCompletedWork_ok {opid answers} (run : info.onCompletedWork opid answers = .ok changed)
    : ∃ before work after next, info.workflows = before ++ work :: after ∧ work.opid = opid
      ∧ info.nextWork work answers = .ok next
      ∧ changed = { info with workflows := before ++ after ++ next.toList } := by
  replace run := catchStd_ok run
  cases found : info.workflows.find? (·.opid = opid) with
  | none =>
    rw [found] at run
    cases run
  | some work =>
    rw [found] at run
    obtain ⟨next, reserved, run⟩ := bind_ok.mp run
    obtain ⟨isOpid, before, after, split, others⟩ := List.find?_eq_some_iff_append.mp found
    have erased : info.workflows.eraseP (·.opid = opid) = before ++ after := by
      rw [split, List.eraseP_append_right _ (by simpa using others)]
      simp only [List.eraseP_cons, isOpid, cond_true]
    refine ⟨before, work, after, next, split, by simpa using isOpid, reserved, ?_⟩
    cases next with
    | none =>
      cases run
      rw [erased, Option.toList_none, List.append_nil]
    | some next =>
      cases run
      rw [PrivatizerInfo.reserveWork, erased, Option.toList_some]

namespace PrivatizerMan

variable {man : PrivatizerMan}

theorem visitDeposit_cases (info : PrivatizerInfo) (answers : Answers)
    : man.visitDeposit info answers = man
      ∨ ∃ changed, info.checkNewDeposit answers = .ok (some changed)
        ∧ man.visitDeposit info answers = man.store changed := by
  unfold visitDeposit
  split
  next changed deposit => exact .inr ⟨changed, deposit, rfl⟩
  next => exact .inl rfl

theorem getPrivatizer_cases (publicAddress privateAddress : String)
    : man.getPrivatizer publicAddress privateAddress = {}
      ∨ man.mapPublicaddrPrivatizer.lookup publicAddress
        = some (man.getPrivatizer publicAddress privateAddress) := by
  unfold getPrivatizer
  cases man.mapPublicaddrPrivatizer.lookup publicAddress with
  | none => exact .inl rfl
  | some item =>
    dsimp only
    split
    · exact .inr rfl
    · exact .inl rfl

/-- A visit may start the operation of a work, and then may reserve a new deposit. -/
theorem visit_cases (publicAddress privateAddress : String) (answers : Answers)
    : man.visit publicAddress privateAddress answers = (man, [])
      ∨ (∃ info, man.mapPublicaddrPrivatizer.lookup publicAddress = some info
        ∧ man.visit publicAddress privateAddress answers = (man.visitDeposit info answers, []))
      ∨ ∃ info changed sendmany, man.mapPublicaddrPrivatizer.lookup publicAddress = some info
        ∧ info.checkPendingWork answers = .ok (some (changed, sendmany))
        ∧ man.visit publicAddress privateAddress answers
          = ((man.started changed sendmany).visitDeposit changed answers, [sendmany]) := by
  unfold visit
  rcases man.getPrivatizer_cases publicAddress privateAddress with none | found
  · rw [none]
    exact .inl rfl
  dsimp only
  split
  next => exact .inl rfl
  next =>
    split
    next => exact .inl rfl
    next => exact .inr (.inl ⟨_, found, rfl⟩)
    next changed sendmany run => exact .inr (.inr ⟨_, changed, sendmany, found, run, rfl⟩)

theorem onFinishedZsendmany_failed (opid : String) (answers : EndAnswers)
    : man.onFinishedZsendmany opid false answers = .ok man := by
  unfold onFinishedZsendmany
  cases man.mapOpidPrivatizerId.lookup opid with
  | none => rfl
  | some id =>
    dsimp only
    split
    · rfl
    · rfl

theorem onFinishedZsendmany_cases (opid : String) (success : Bool) (answers : EndAnswers)
    : (man.onFinishedZsendmany opid success answers).toOption.getD man = man
      ∨ ∃ id info changed, man.mapOpidPrivatizerId.lookup opid = some id
        ∧ man.mapPublicaddrPrivatizer.lookup id = some info ∧ success = true
        ∧ info.onCompletedWork opid answers = .ok changed
        ∧ (man.onFinishedZsendmany opid success answers).toOption.getD man
          = man.store changed := by
  cases success with
  | false =>
    rw [onFinishedZsendmany_failed]
    exact .inl rfl
  | true =>
    unfold onFinishedZsendmany
    cases known : man.mapOpidPrivatizerId.lookup opid with
    | none => exact .inl rfl
    | some id =>
      dsimp only
      rcases man.getPrivatizer_cases id "" with none | found
      · rw [none]
        exact .inl rfl
      split
      · exact .inl rfl
      cases run : (man.getPrivatizer id "").onCompletedWork opid answers with
      | error thrown => cases thrown <;> exact .inl rfl
      | ok changed => exact .inr ⟨id, _, changed, rfl, found, rfl, run, rfl⟩

theorem registered_empty : Registered {} where
  keyed := nofun
  idle := rfl

theorem Registered.addPrivatizer (registered : man.Registered)
    {wallet publicAddress privateAddress overwrite added}
    (run : man.addPrivatizer wallet publicAddress privateAddress overwrite = .ok added)
    : added.Registered := by
  have idleItem : (man.getPrivatizer publicAddress "").workflows = [] := by
    rcases man.getPrivatizer_cases publicAddress "" with none | found
    · rw [none]
    · exact (registered.keyed publicAddress _ found).2
  simp only [PrivatizerMan.addPrivatizer, bind_ok] at run
  obtain ⟨_, _, _, _, _, _, _, _, _, _, _, _, _, _, _, _, run⟩ := run
  split at run
  · cases run
    exact registered
  · cases run
    refine ⟨?_, registered.idle⟩
    intro other info found
    rcases FiniteMap.lookup_insert_cases found with ⟨rfl, rfl⟩ | ⟨-, before⟩
    · exact ⟨rfl, idleItem⟩
    · exact registered.keyed other info before

end PrivatizerMan

end Resistance.Privatizer

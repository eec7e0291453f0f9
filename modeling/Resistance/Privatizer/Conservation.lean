import Resistance.Privatizer.Manager

/-! Every `z_sendmany` of the privatizer belongs to a chain of works that started with one deposit
and takes its amount, less the fees, through two shielded addresses to the private address.
-/

namespace Resistance.Privatizer

open List Lib Lib.Checks

/-- The works that one deposit has led to: those whose operation was started, and the one that is
still listed, if any.
-/
structure Chain where
  publicAddress : String
  privateAddress : String
  deposit : Int
  sent : List Sendmany
  current : Option PrivatizerWork

/-- The works lead from the public address over two shielded ones to the private address, and each
of them passes on what the one before it has paid.
-/
def Route (publicAddress privateAddress : String) (deposit : Int) : List PrivatizerWork → Prop
  | [] => True
  | first :: works =>
    (first.workflow = .tToZ ∧ first.srcAddress = publicAddress ∧ first.amount = deposit)
    ∧ match works with
      | [] => True
      | second :: works =>
        (second.workflow = .zToZ ∧ second.srcAddress = first.destAddress
          ∧ second.amount = deposit - privatizerTxFee)
        ∧ match works with
          | [] => True
          | third :: works =>
            (third.workflow = .zToT ∧ third.srcAddress = second.destAddress
              ∧ third.destAddress = privateAddress
              ∧ third.amount = deposit - 2 * privatizerTxFee)
            ∧ works = []

namespace Chain

def works (chain : Chain) : List PrivatizerWork := chain.sent.map Sendmany.work

def Routed (chain : Chain) (works : List PrivatizerWork) : Prop :=
  Route chain.publicAddress chain.privateAddress chain.deposit works

/-- The listed work is the next one, or the last one whose operation was started; once no work is
listed, all three operations have been started.
-/
def Ok (chain : Chain) : Prop :=
  privatizerMinWorkAmount ≤ chain.deposit
  ∧ chain.Routed chain.works
  ∧ match chain.current with
    | none => chain.works.length = 3
    | some work =>
      (work.opid = "" → chain.Routed (chain.works ++ [work]))
      ∧ (work.opid ≠ "" → chain.works.getLast? = some work)

end Chain

variable {sendmany : Sendmany} {work : PrivatizerWork} {publicAddress : String} {deposit : Int}

theorem Sendmany.Spends.self (spends : sendmany.Spends work)
    : sendmany.Spends sendmany.work := by
  obtain ⟨⟨uuid, sent⟩, covered, dests⟩ := spends
  rw [sent]
  exact ⟨⟨uuid, sent⟩, covered, dests⟩

theorem Route.opid {privateAddress works} (opid : String)
    (route : Route publicAddress privateAddress deposit (works ++ [work]))
    : Route publicAddress privateAddress deposit (works ++ [{ work with opid }]) := by
  match works with
  | [] => exact route
  | [_] => exact route
  | [_, _] => exact route
  | _ :: _ :: _ :: rest => exact absurd route.2.2.2 (by simp)

/-- The work that follows a completed one continues the route, or the route is complete. -/
theorem Route.nextWork {info : PrivatizerInfo} {works next} {answers : EndAnswers}
    (route : Route info.publicAddress info.privateAddress deposit works)
    (last : works.getLast? = some work) (run : info.nextWork work answers = .ok next)
    : match next with
      | none => works.length = 3
      | some next => next.opid = ""
        ∧ Route info.publicAddress info.privateAddress deposit (works ++ [next]) := by
  match works with
  | [] => cases last
  | [first] =>
    obtain rfl : first = work := by simpa using last
    obtain ⟨isFirst, _⟩ := route
    unfold PrivatizerInfo.nextWork at run
    rw [isFirst.1] at run
    obtain ⟨destAddress, _, run⟩ := bind_ok.mp run
    cases run
    exact ⟨rfl, isFirst, ⟨rfl, rfl, by rw [isFirst.2.2]⟩, trivial⟩
  | [first, second] =>
    obtain rfl : second = work := by simpa using last
    obtain ⟨isFirst, isSecond, _⟩ := route
    unfold PrivatizerInfo.nextWork at run
    rw [isSecond.1] at run
    cases run
    refine ⟨rfl, isFirst, isSecond, ⟨rfl, rfl, rfl, ?_⟩, rfl⟩
    simp only [isSecond.2.2]
    omega
  | [first, second, third] =>
    obtain rfl : third = work := by simpa using last
    obtain ⟨_, _, isThird, _⟩ := route
    unfold PrivatizerInfo.nextWork at run
    rw [isThird.1] at run
    cases run
    rfl
  | _ :: _ :: _ :: _ :: rest => exact absurd route.2.2.2 (by simp)

/-- The listed works of the chains of one privatizer. -/
def listed (publicAddress : String) (chains : List Chain) : List PrivatizerWork :=
  chains.filterMap fun chain =>
    if chain.publicAddress = publicAddress then chain.current else none

/-- The chains account for the works of all privatizers and for every `z_sendmany`. -/
structure Accounts (man : PrivatizerMan) (log : List Sendmany) (chains : List Chain)
    : Prop where
  keyed : ∀ publicAddress info, man.mapPublicaddrPrivatizer.lookup publicAddress = some info
    → info.publicAddress = publicAddress
  works : ∀ publicAddress info, man.mapPublicaddrPrivatizer.lookup publicAddress = some info
    → info.workflows = listed publicAddress chains
  target : ∀ chain ∈ chains, ∀ info,
    man.mapPublicaddrPrivatizer.lookup chain.publicAddress = some info
    → info.privateAddress = chain.privateAddress
  ok : ∀ chain ∈ chains, chain.Ok
  logged : log.Perm (chains.flatMap Chain.sent)
  spends : ∀ sendmany ∈ log, sendmany.Spends sendmany.work
  named : ∀ opid id, man.mapOpidPrivatizerId.lookup opid = some id → opid ≠ ""

theorem listed_append (publicAddress : String) (chains more : List Chain)
    : listed publicAddress (chains ++ more)
      = listed publicAddress chains ++ listed publicAddress more :=
  filterMap_append

theorem listed_self (chain : Chain)
    : listed chain.publicAddress [chain] = chain.current.toList := by
  cases current : chain.current <;> simp [listed, current]

theorem listed_other {chain} (other : chain.publicAddress ≠ publicAddress)
    : listed publicAddress [chain] = [] := by
  simp [listed, other]

/-- A listed work belongs to one of the chains. -/
theorem listed_split {chains before after}
    (split : listed publicAddress chains = before ++ work :: after)
    : ∃ earlier chain later, chains = earlier ++ [chain] ++ later
      ∧ listed publicAddress earlier = before ∧ listed publicAddress later = after
      ∧ chain.publicAddress = publicAddress ∧ chain.current = some work := by
  obtain ⟨left, right, rfl, leftWorks, rightWorks⟩ := filterMap_eq_append_iff.mp split
  obtain ⟨skipped, chain, later, rfl, none, isWork, rest⟩ := filterMap_eq_cons_iff.mp rightWorks
  have nothing : listed publicAddress skipped = [] := filterMap_eq_nil_iff.mpr none
  refine ⟨left ++ skipped, chain, later, by simp, ?_, rest, ?_⟩
  · rw [listed_append, nothing, append_nil]
    exact leftWorks
  · split at isWork
    next here => exact ⟨here, isWork⟩
    next => cases isWork

namespace Accounts

variable {man : PrivatizerMan} {log : List Sendmany} {chains : List Chain}
  {publicAddress : String} {info : PrivatizerInfo}

/-- The chains still account for everything after one privatizer has changed along with its
chains.
-/
theorem update (accounts : Accounts man log chains)
    (found : man.mapPublicaddrPrivatizer.lookup publicAddress = some info)
    {next workflows more changed} (stored : next.mapPublicaddrPrivatizer
      = man.mapPublicaddrPrivatizer.insert info.publicAddress { info with workflows })
    (here : workflows = listed publicAddress changed) (elsewhere : ∀ other, other ≠ publicAddress
      → listed other changed = listed other chains) (ok : ∀ chain ∈ changed, chain ∈ chains
      ∨ chain.Ok ∧ chain.publicAddress = publicAddress
        ∧ chain.privateAddress = info.privateAddress)
    (logged : more.Perm (changed.flatMap Chain.sent))
    (spends : ∀ sendmany ∈ more, sendmany.Spends sendmany.work)
    (named : ∀ opid id, next.mapOpidPrivatizerId.lookup opid = some id → opid ≠ "")
    : Accounts next more changed := by
  obtain rfl := accounts.keyed publicAddress info found
  have lookup : ∀ other item, next.mapPublicaddrPrivatizer.lookup other = some item
      → other = info.publicAddress ∧ item = { info with workflows }
        ∨ other ≠ info.publicAddress
          ∧ man.mapPublicaddrPrivatizer.lookup other = some item := by
    intro other item there
    rw [stored] at there
    exact FiniteMap.lookup_insert_cases there
  refine ⟨?_, ?_, ?_, ?_, logged, spends, named⟩
  · intro other item there
    rcases lookup other item there with ⟨rfl, rfl⟩ | ⟨_, before⟩
    · rfl
    · exact accounts.keyed other item before
  · intro other item there
    rcases lookup other item there with ⟨rfl, rfl⟩ | ⟨differs, before⟩
    · exact here
    · rw [elsewhere other differs]
      exact accounts.works other item before
  · intro chain mem item there
    rcases ok chain mem with old | ⟨_, isHere, target⟩
    · rcases lookup _ item there with ⟨isHere, rfl⟩ | ⟨_, before⟩
      · exact accounts.target chain old info (isHere ▸ found)
      · exact accounts.target chain old item before
    · rcases lookup _ item there with ⟨_, rfl⟩ | ⟨differs, _⟩
      · exact target.symm
      · exact absurd isHere differs
  · intro chain mem
    rcases ok chain mem with old | ⟨isOk, _⟩
    · exact accounts.ok chain old
    · exact isOk

variable {work : PrivatizerWork}

section

variable (accounts : Accounts man log chains)
include accounts

section

variable (found : man.mapPublicaddrPrivatizer.lookup publicAddress = some info)
include found

/-- A new deposit starts a chain. -/
theorem reserve (waiting : work.opid = "") (first : work.workflow = .tToZ)
    (source : work.srcAddress = info.publicAddress) (enough : privatizerMinWorkAmount ≤ work.amount)
    : ∃ changed, Accounts (man.store (info.reserveWork work)) log changed := by
  have key := accounts.keyed publicAddress info found
  let chain : Chain := ⟨publicAddress, info.privateAddress, work.amount, [], some work⟩
  refine ⟨chains ++ [chain], accounts.update found rfl ?_ ?_ ?_ ?_ accounts.spends
    accounts.named⟩
  · rw [listed_append, accounts.works publicAddress info found]
    exact congrArg _ (listed_self chain).symm
  · intro other differs
    rw [listed_append, listed_other (Ne.symm differs), append_nil]
  · intro other mem
    rcases mem_append.mp mem with old | isNew
    · exact .inl old
    · cases mem_singleton.mp isNew
      refine .inr ⟨⟨enough, trivial, ?_, fun started => absurd waiting started⟩, rfl, rfl⟩
      exact fun _ => ⟨⟨first, source.trans key, rfl⟩, trivial⟩
  · simpa [chain] using accounts.logged

section

variable {before after : List PrivatizerWork} (split : info.workflows = before ++ work :: after)
include split

/-- Starting the operation of a work adds it to its chain. -/
theorem start {sendmany} (waiting : work.opid = "") (spends : sendmany.Spends work)
    : ∃ changed, Accounts
        (man.started { info with workflows := before ++ sendmany.work :: after } sendmany)
        (log ++ [sendmany]) changed := by
  obtain ⟨uuid, sent⟩ := spends.sent
  rw [accounts.works publicAddress info found] at split
  obtain ⟨earlier, chain, later, rfl, rfl, rfl, rfl, current⟩ := listed_split split
  have mem : chain ∈ earlier ++ [chain] ++ later := by simp
  obtain ⟨enough, _, listedOk⟩ := accounts.ok chain mem
  rw [current] at listedOk
  obtain ⟨route, _⟩ := listedOk
  have logged := accounts.logged
  let next : Chain := { chain with sent := chain.sent ++ [sendmany], current := some sendmany.work }
  have nextWorks : next.works = chain.works ++ [sendmany.work] := by
    simp [next, Chain.works]
  refine ⟨earlier ++ [next] ++ later, accounts.update found rfl ?_ ?_ ?_ ?_ ?_ ?_⟩
  · have here : listed chain.publicAddress [next] = [sendmany.work] := listed_self next
    rw [listed_append, listed_append, here]
    simp
  · intro other differs
    have nextNotHere : next.publicAddress ≠ other := differs.symm
    simp only [listed_append, listed_other differs.symm, listed_other nextNotHere]
  · intro other isOther
    simp only [mem_append, mem_singleton] at isOther ⊢
    rcases isOther with (old | rfl) | old
    · exact .inl (.inl (.inl old))
    · refine .inr ⟨⟨enough, ?_, ?_, ?_⟩, rfl, ?_⟩
      · rw [nextWorks, sent]
        exact (route waiting).opid _
      · intro none
        rw [sent] at none
        exact absurd none (by simp)
      · intro _
        rw [nextWorks, getLast?_concat]
      · exact (accounts.target chain mem info found).symm
    · exact .inl (.inr old)
  · simp only [flatMap_append, flatMap_cons, flatMap_nil, append_nil] at logged ⊢
    refine (logged.append_right [sendmany]).trans ?_
    simp only [append_assoc, next]
    exact List.Perm.append_left _ (List.Perm.append_left _ perm_append_comm)
  · intro other isOther
    rcases mem_append.mp isOther with old | isNew
    · exact accounts.spends other old
    · cases mem_singleton.mp isNew
      exact spends.self
  · intro opid id known
    by_cases same : opid = sendmany.work.opid
    · rw [same, sent]
      simp
    · simp only [PrivatizerMan.started, AList.lookup_insert_ne same] at known
      exact accounts.named opid id known

/-- The end of an operation moves its chain on. -/
theorem complete {answers : EndAnswers} {reserved} (started : work.opid ≠ "")
    (run : info.nextWork work answers = .ok reserved)
    : ∃ changed, Accounts
        (man.store { info with workflows := before ++ after ++ reserved.toList }) log changed := by
  have key := accounts.keyed publicAddress info found
  rw [accounts.works publicAddress info found] at split
  obtain ⟨earlier, chain, later, rfl, rfl, rfl, rfl, current⟩ := listed_split split
  have mem : chain ∈ earlier ++ [chain] ++ later := by simp
  obtain ⟨enough, routed, listedOk⟩ := accounts.ok chain mem
  rw [current] at listedOk
  obtain ⟨_, last⟩ := listedOk
  have target := accounts.target chain mem info found
  have logged := accounts.logged
  let next : Chain := { chain with current := reserved }
  refine ⟨earlier ++ later ++ [next], accounts.update found rfl ?_ ?_ ?_ ?_ accounts.spends
    accounts.named⟩
  · have here : listed chain.publicAddress [next] = reserved.toList := listed_self next
    rw [listed_append, listed_append, here]
  · intro other differs
    have nextNotHere : next.publicAddress ≠ other := differs.symm
    simp only [listed_append, listed_other differs.symm, listed_other nextNotHere, append_nil]
  · intro other isOther
    simp only [mem_append, mem_singleton] at isOther ⊢
    rcases isOther with (old | old) | rfl
    · exact .inl (.inl (.inl old))
    · exact .inl (.inr old)
    refine .inr ⟨⟨enough, routed, ?_⟩, rfl, target.symm⟩
    have infoRouted : Route info.publicAddress info.privateAddress chain.deposit chain.works := by
      rw [key, target]
      exact routed
    have follows := infoRouted.nextWork (last started) run
    cases reserved with
    | none => exact follows
    | some reserved =>
      obtain ⟨waiting, route⟩ := follows
      rw [key, target] at route
      exact ⟨fun _ => route, fun isStarted => absurd waiting isStarted⟩
  · simp only [flatMap_append, append_assoc] at logged ⊢
    exact logged.trans (List.Perm.append_left _ perm_append_comm)

end

theorem visitDeposit (answers : Answers)
    : ∃ changed, Accounts (man.visitDeposit info answers) log changed := by
  rcases man.visitDeposit_cases info answers with same | ⟨changed, deposit, stored⟩
  · rw [same]
    exact ⟨chains, accounts⟩
  · obtain ⟨work, rfl, waiting, first, source, enough⟩ := checkNewDeposit_some deposit
    rw [stored]
    exact accounts.reserve found waiting first source enough

end

theorem visit (publicAddress privateAddress : String) (answers : Answers)
    : ∃ changed, Accounts (man.visit publicAddress privateAddress answers).1
        (log ++ (man.visit publicAddress privateAddress answers).2) changed := by
  rcases man.visit_cases publicAddress privateAddress answers with
    same | ⟨info, found, deposit⟩ | ⟨info, changed, sendmany, found, pending, started⟩
  · rw [same, append_nil]
    exact ⟨chains, accounts⟩
  · rw [deposit, append_nil]
    exact accounts.visitDeposit found answers
  obtain ⟨before, work, after, split, rfl, waiting, spends⟩ := checkPendingWork_some pending
  obtain ⟨next, nextAccounts⟩ := accounts.start found split waiting spends
  have key := accounts.keyed publicAddress info found
  rw [started]
  exact nextAccounts.visitDeposit (PrivatizerMan.lookup_store key) answers

theorem step (event : PrivatizerMan.Event)
    : ∃ changed, Accounts (man.step event).1 (log ++ (man.step event).2) changed := by
  cases event with
  | visit publicAddress privateAddress answers =>
    exact accounts.visit publicAddress privateAddress answers
  | finished opid success answers =>
    simp only [PrivatizerMan.step, append_nil]
    rcases man.onFinishedZsendmany_cases opid success answers with
      same | ⟨id, info, changed, known, found, _, completed, stored⟩
    · rw [same]
      exact ⟨chains, accounts⟩
    obtain ⟨before, work, after, next, split, isOpid, reserved, rfl⟩ := onCompletedWork_ok completed
    have started : work.opid ≠ "" := isOpid ▸ accounts.named opid id known
    rw [stored]
    exact accounts.complete found split started reserved

theorem run (events : List PrivatizerMan.Event)
    : ∃ changed, Accounts (man.run events).1 (log ++ (man.run events).2) changed := by
  induction events generalizing man log chains with
  | nil =>
    rw [PrivatizerMan.run, append_nil]
    exact ⟨chains, accounts⟩
  | cons event events ih =>
    obtain ⟨changed, next⟩ := accounts.step event
    rw [PrivatizerMan.run, ← append_assoc]
    exact ih next

end

end Accounts

theorem accounts_registered {man} (registered : man.Registered)
    : Accounts man [] [] where
  keyed publicAddress info found := (registered.keyed publicAddress info found).1
  works publicAddress info found := (registered.keyed publicAddress info found).2
  target := nofun
  ok := nofun
  logged := .refl _
  spends := nofun
  named := by
    rw [registered.idle]
    exact nofun

/-- Along a route the amounts stay above the fees. -/
theorem Route.amount_ge {privateAddress works}
    (route : Route publicAddress privateAddress deposit works) (mem : work ∈ works)
    : deposit - 2 * privatizerTxFee ≤ work.amount := by
  have fee : (0 : Int) ≤ privatizerTxFee := by decide
  match works with
  | [] => cases mem
  | [first] =>
    cases mem_singleton.mp mem
    have amount := route.1.2.2
    omega
  | [first, second] =>
    have amounts := route.1.2.2
    have next := route.2.1.2.2
    rcases mem_pair.mp mem with rfl | rfl <;> omega
  | [first, second, third] =>
    have amounts := route.1.2.2
    have next := route.2.1.2.2
    have last := route.2.2.1.2.2.2
    simp only [mem_cons, not_mem_nil, or_false] at mem
    rcases mem with rfl | rfl | rfl <;> omega
  | _ :: _ :: _ :: _ :: rest => exact absurd route.2.2.2 (by simp)

/-- The outputs and the fee take the whole balance that was read. -/
theorem Sendmany.Spends.sum (spends : sendmany.Spends work)
    : (sendmany.dests.map Prod.snd).sum + privatizerTxFee = sendmany.realAmount := by
  have covered := spends.covered
  rw [spends.dests]
  split
  · simp only [map_cons, map_nil, sum_cons, sum_nil]
    omega
  · simp only [map_cons, map_nil, sum_cons, sum_nil]
    omega

theorem Sendmany.Spends.nonneg (spends : sendmany.Spends work)
    (enough : privatizerTxFee ≤ work.amount)
    : ∀ dest ∈ sendmany.dests, 0 ≤ dest.2 := by
  intro dest mem
  rw [spends.dests] at mem
  split at mem
  next rest =>
    rcases mem_pair.mp mem with rfl | rfl
    · exact Int.sub_nonneg.mpr enough
    · exact Int.le_of_lt rest
  next =>
    cases mem_singleton.mp mem
    exact Int.sub_nonneg.mpr enough

/-- What has happened when the last work of a chain has completed. -/
structure Chain.Delivered (chain : Chain) (tToZ zToZ zToT : Sendmany) : Prop where
  sent : chain.sent = [tToZ, zToZ, zToT]
  workflows : tToZ.work.workflow = .tToZ ∧ zToZ.work.workflow = .zToZ
    ∧ zToT.work.workflow = .zToT
  first : tToZ.work.srcAddress = chain.publicAddress ∧ tToZ.work.amount = chain.deposit
  second : zToZ.work.srcAddress = tToZ.work.destAddress
  third : zToT.work.srcAddress = zToZ.work.destAddress
  paid : zToT.dests.head? = some (chain.privateAddress, chain.deposit - 3 * privatizerTxFee)

theorem Chain.Ok.delivered {chain : Chain} (ok : chain.Ok) (complete : chain.current = none)
    (spends : ∀ sendmany ∈ chain.sent, sendmany.Spends sendmany.work)
    : ∃ tToZ zToZ zToT, chain.Delivered tToZ zToZ zToT := by
  obtain ⟨_, routed, all⟩ := ok
  rw [complete] at all
  obtain ⟨tToZ, zToZ, zToT, sent⟩ : ∃ a b c, chain.sent = [a, b, c] :=
    length_eq_three.mp (by simpa [works] using all)
  rw [works, sent] at routed
  obtain ⟨isFirst, isSecond, isThird, _⟩ := routed
  have last := spends zToT (by simp [sent])
  refine ⟨tToZ, zToZ, zToT, sent, ⟨isFirst.1, isSecond.1, isThird.1⟩, isFirst.2, isSecond.2.1,
    isThird.2.1, ?_⟩
  rw [last.dests, isThird.2.2.1, head?_cons]
  congr 2
  omega

/-- Every `z_sendmany` of a run spends the whole balance it has read, with no negative amount. They
belong to chains that each take one deposit from the public address over two shielded ones; once a
chain is complete it has paid the deposit less three fees to the private address.
-/
theorem chains_conserve {man : PrivatizerMan} (registered : man.Registered)
    (events : List PrivatizerMan.Event)
    : (∀ sendmany ∈ (man.run events).2,
        (sendmany.dests.map Prod.snd).sum + privatizerTxFee = sendmany.realAmount
        ∧ ∀ dest ∈ sendmany.dests, 0 ≤ dest.2)
      ∧ ∃ chains : List Chain, (man.run events).2.Perm (chains.flatMap Chain.sent)
        ∧ (∀ publicAddress info,
          (man.run events).1.mapPublicaddrPrivatizer.lookup publicAddress = some info
          → info.workflows = listed publicAddress chains
            ∧ ∀ chain ∈ chains, chain.publicAddress = publicAddress
              → chain.privateAddress = info.privateAddress)
        ∧ ∀ chain ∈ chains, chain.Routed chain.works
          ∧ (chain.current = none → ∃ tToZ zToZ zToT, chain.Delivered tToZ zToZ zToT) := by
  obtain ⟨chains, accounts⟩ := (accounts_registered registered).run events
  refine ⟨?_, chains, accounts.logged, ?_, ?_⟩
  · intro sendmany mem
    have spends := accounts.spends sendmany mem
    obtain ⟨chain, isChain, sent⟩ := mem_flatMap.mp (accounts.logged.mem_iff.mp mem)
    obtain ⟨enough, routed, _⟩ := accounts.ok chain isChain
    have above := routed.amount_ge (mem_map_of_mem sent)
    refine ⟨spends.sum, spends.nonneg ?_⟩
    have coins : 3 * privatizerTxFee ≤ privatizerMinWorkAmount := by decide
    omega
  · intro publicAddress info found
    refine ⟨accounts.works publicAddress info found, ?_⟩
    rintro chain mem rfl
    exact (accounts.target chain mem info found).symm
  · intro chain mem
    refine ⟨(accounts.ok chain mem).2.1, ?_⟩
    intro complete
    refine (accounts.ok chain mem).delivered complete ?_
    intro sendmany sent
    exact accounts.spends sendmany
      (accounts.logged.mem_iff.mpr (mem_flatMap.mpr ⟨chain, mem, sent⟩))

section Examples

open PrivatizerMan

def onePrivatizer : PrivatizerMan where
  mapPublicaddrPrivatizer :=
    AList.singleton "public" { publicAddress := "public", privateAddress := "private" }

theorem registered_onePrivatizer : onePrivatizer.Registered where
  keyed := by
    intro publicAddress info found
    rcases FiniteMap.lookup_insert_cases (m := ∅) found with ⟨rfl, rfl⟩ | ⟨-, absent⟩
    · exact ⟨rfl, rfl⟩
    · cases absent
  idle := rfl

/-- `Run` finds the balance on the public address. -/
def deposited (balance : Int) : Event :=
  .visit "public" "private" {
    height := 100
    balance := fun _ => .error ""
    zSendmany := fun _ => .error ""
    deposit := .ok balance
    newAddress := .ok "z1"
    nRand := 250000000 }

/-- `Run` finds the balance on the address of the first work that is ready, and starts it. -/
def begun (height balance : Int) (uuid : String) : Event :=
  .visit "public" "private" {
    height
    balance := fun _ => .ok balance
    zSendmany := fun _ => .ok uuid
    deposit := .error ""
    newAddress := .error ""
    nRand := 0 }

def ended (uuid : String) (success : Bool) : Event :=
  .finished ("opid-" ++ uuid) success ⟨100, .ok "z2", 0⟩

def delivery : List Event :=
  [deposited 500000000, begun 100 500000000 "a", ended "a" true, begun 110 349990000 "b",
    ended "b" true, begun 120 349980000 "c", ended "c" true]

theorem delivery_conserves
    : (onePrivatizer.run delivery).2.map Sendmany.dests
        = [[("z1", 349990000), ("public", 150000000)], [("z2", 349980000)],
            [("private", 349970000)]]
      ∧ ∃ chains : List Chain, (onePrivatizer.run delivery).2.Perm (chains.flatMap Chain.sent)
        ∧ ∀ chain ∈ chains, chain.Routed chain.works := by
  refine ⟨by decide +kernel, ?_⟩
  obtain ⟨_, chains, logged, _, routes⟩ := chains_conserve registered_onePrivatizer delivery
  exact ⟨chains, logged, fun chain mem => (routes chain mem).1⟩

end Examples

end Resistance.Privatizer

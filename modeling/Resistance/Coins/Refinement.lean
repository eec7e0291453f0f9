import Resistance.Coins.Cache
import Resistance.Lib.Simulation

/-! A stack of coins caches behaves like one map from transaction ids to unspent coins, with
every edit applied to the map directly.
-/

namespace Resistance.Coins

open Primitives Consensus Lib Lib.Checks Lib.Simulation CCoinsView CCoins CoinsMap

inductive Op where
  | getCoins (txid : Uint256)
  | haveCoins (txid : Uint256)
  | modifyCoins (txid : Uint256) (edit : CCoins → CCoins)
  | modifyNewCoins (txid : Uint256) (edit : CCoins → CCoins)
  | push
  | flush
  | pop

inductive Answer where
  | coins (found : Option CCoins)
  | have (found : Bool)
  | done
  deriving DecidableEq

def step (view : CCoinsView) : Op → Except Failure (CCoinsView × Answer)
  | .getCoins txid => pure ((view.getCoins txid).2, .coins (view.getCoins txid).1)
  | .haveCoins txid => do
    let found ← view.haveCoins txid
    return (found.2, .have found.1)
  | .modifyCoins txid edit => do return (← view.modifyCoins txid edit, .done)
  | .modifyNewCoins txid edit => do return (← view.modifyNewCoins txid edit, .done)
  | .push => pure (.cache ∅ view, .done)
  | .flush => do return (← view.flush, .done)
  | .pop => do return (← view.pop, .done)

/-- Only caches are queried, changed and flushed, and `ModifyNewCoins` is called only where
nothing holds unspent outputs of the transaction.
-/
def Disciplined : CCoinsView → Op → Prop
  | _, .push => True
  | .db _, _ => False
  | .cache cacheCoins base, .modifyNewCoins txid _ =>
    (CCoinsView.cache cacheCoins base).NoneUnspent txid
  | .cache _ _, _ => True

/-- The map that a database holds. -/
def CCoinsViewDB.plain (disk : CCoinsViewDB) : CoinsMap :=
  FiniteMap.filterMap (fun coins => live (some coins.cleanup)) disk.coins

theorem CCoinsViewDB.lookup_plain (disk : CCoinsViewDB) (txid : Uint256)
    : disk.plain.lookup txid = live ((CCoinsView.db disk).coinsAt txid) := by
  rw [plain, FiniteMap.lookup_filterMap, coinsAt]
  cases disk.coins.lookup txid with
  | none => rfl
  | some coins => rfl

def spec (coins : CoinsMap) : Op → CoinsMap × Answer
  | .getCoins txid => (coins, .coins (coins.lookup txid))
  | .haveCoins txid => (coins, .have (coins.lookup txid).isSome)
  | .modifyCoins txid edit =>
    (coins.edit txid (edit (coins.getOrClear txid)), .done)
  | .modifyNewCoins txid edit => (coins.edit txid (edit .clear), .done)
  | .push => (coins, .done)
  | .flush => (coins, .done)
  | .pop => (coins, .done)

variable {ω : Type}

/-- What is observed of the coins that a query finds. -/
def observe (obs : CCoins → ω) (found : Option CCoins) : Option ω := (live found).map obs

/-- Coins that are not found look like spent ones. -/
theorem observe_getD (obs : CCoins → ω) (found : Option CCoins)
    : observe obs (some (found.getD .clear)) = observe obs found := by
  cases found <;> rfl

def Answer.Agrees (obs : CCoins → ω) : Answer → Answer → Prop
  | .coins a, .coins b => observe obs a = observe obs b
  | .have a, .have b => a = b
  | .done, .done => True
  | _, _ => False

/-- The edit cannot tell coins apart that look the same. -/
def Respects (obs : CCoins → ω) (edit : CCoins → CCoins) : Prop :=
  ∀ a b : CCoins, a.Clean → b.Clean → observe obs (some a) = observe obs (some b) →
    observe obs (some (edit a).cleanup) = observe obs (some (edit b).cleanup)

/-- A property of the edits of existing coins. -/
def Op.Edits (property : (CCoins → CCoins) → Prop) : Op → Prop
  | .modifyCoins _ edit => property edit
  | _ => True

/-- The view looks like the map, which holds unspent coins only. -/
structure Related (obs : CCoins → ω) (view : CCoinsView) (coins : CoinsMap) : Prop where
  consistent : view.Consistent
  same : ∀ txid, observe obs (view.coinsAt txid) = (coins.lookup txid).map obs
  unspent : ∀ txid, live (coins.lookup txid) = coins.lookup txid
  clean : ∀ txid, ∀ found ∈ coins.lookup txid, found.Clean

namespace Related

variable {obs : CCoins → ω} {view : CCoinsView} {coins : CoinsMap}

section

variable (related : Related obs view coins)
include related

/-- A view that says the same as before looks like the same map. -/
theorem of_live {next} (consistent : next.Consistent)
    (same : ∀ txid, live (next.coinsAt txid) = live (view.coinsAt txid))
    : Related obs next coins where
  consistent
  same txid := by rw [observe, same, ← related.same txid, observe]
  unspent := related.unspent
  clean := related.clean

/-- An edit changes the view and the map alike. -/
theorem edit {next txid} {a b : CCoins} (edited : Edited view next txid a.cleanup)
    (alike : observe obs (some a.cleanup) = observe obs (some b.cleanup))
    : Related obs next (coins.edit txid b) where
  consistent := edited.consistent
  same other := by
    by_cases here : other = txid
    · subst here
      rw [lookup_edit_self, observe, edited.here]
      exact alike
    · rw [lookup_edit_ne _ _ here, edited.elsewhere other here]
      exact related.same other
  unspent other := by
    by_cases here : other = txid
    · subst here
      rw [lookup_edit_self, live_live]
    · rw [lookup_edit_ne _ _ here, related.unspent]
  clean other := by
    by_cases here : other = txid
    · subst here
      intro found mem
      rw [lookup_edit_self] at mem
      cases mem_of_mem_live mem
      exact b.clean_cleanup
    · rw [lookup_edit_ne _ _ here]
      exact related.clean other

/-- The coins that a modifier starts from look the same in the view and in the map. -/
theorem start (txid : Uint256)
    : ((view.coinsAt txid).getD .clear).Clean
      ∧ (coins.getOrClear txid).Clean
      ∧ observe obs (some ((view.coinsAt txid).getD .clear))
        = observe obs (some (coins.getOrClear txid)) := by
  rw [getOrClear]
  refine ⟨?_, ?_, ?_⟩
  · cases found : view.coinsAt txid with
    | none => exact clean_clear
    | some a => exact related.consistent.clean found
  · cases found : coins.lookup txid with
    | none => exact clean_clear
    | some b => exact related.clean txid b found
  · rw [observe_getD, observe_getD, related.same, observe, related.unspent]

/-- `HaveCoins` is true exactly for the transactions of the map. -/
theorem have_iff (txid : Uint256)
    : ((view.coinsAt txid).any (! ·.vout.isEmpty)) = (coins.lookup txid).isSome := by
  have same := congrArg Option.isSome (related.same txid)
  rw [observe, Option.isSome_map, Option.isSome_map] at same
  rw [← same]
  cases cached : view.coinsAt txid with
  | none => rfl
  | some a =>
    have empty := (related.consistent.clean cached).vout_eq_nil_iff
    cases pruned : a.isPruned with
    | true => simp [live_pruned pruned, empty.mpr pruned]
    | false => simp [live_eq_self pruned, empty, pruned]

end

end Related

/-- Every disciplined operation on the stack is matched by the map. -/
theorem step_simulates (obs : CCoins → ω)
    : Simulates step (fun view op => Disciplined view op ∧ op.Edits (Respects obs)) spec
        (Related obs) (Answer.Agrees obs) := by
  intro view coins op related allowed
  obtain ⟨disciplined, respects⟩ := allowed
  have consistent := related.consistent
  cases view with
  | db disk =>
    cases op with
    | push => exact ⟨_, rfl, related.of_live ⟨consistent, nofun⟩ fun _ => rfl, trivial⟩
    | _ => cases disciplined
  | cache cacheCoins base =>
    cases op with
    | push => exact ⟨_, rfl, related.of_live ⟨consistent, nofun⟩ fun _ => rfl, trivial⟩
    | getCoins txid =>
      obtain ⟨answer, fills, _⟩ := consistent.getCoins txid
      refine ⟨_, rfl, related.of_live fills.consistent fun txid => ?_, ?_⟩
      · rw [fills.coinsAt]
      · change observe obs ((cache cacheCoins base).getCoins txid).1 = _
        rw [answer, related.same, observe, related.unspent]
    | haveCoins txid =>
      obtain ⟨filled, run, fills⟩ := consistent.haveCoins txid
      refine ⟨(filled, .have _), bind_ok.mpr ⟨_, run, rfl⟩,
        related.of_live fills.consistent fun txid => ?_, related.have_iff txid⟩
      rw [fills.coinsAt]
    | modifyCoins txid edit =>
      obtain ⟨next, run, edited⟩ := consistent.modifyCoins txid edit
      obtain ⟨cleanView, cleanMap, alike⟩ := related.start txid
      refine ⟨(next, .done), bind_ok.mpr ⟨next, run, rfl⟩, ?_, trivial⟩
      exact related.edit edited (respects _ _ cleanView cleanMap alike)
    | modifyNewCoins txid edit =>
      obtain ⟨next, run, edited⟩ := consistent.modifyNewCoins disciplined edit
      exact ⟨(next, .done), bind_ok.mpr ⟨next, run, rfl⟩, related.edit edited rfl, trivial⟩
    | flush =>
      obtain ⟨written, run, ok, _, same⟩ := consistent.batchWrite
      refine ⟨(.cache ∅ written, .done), ?_, related.of_live ⟨ok, nofun⟩ same, trivial⟩
      exact bind_ok.mpr ⟨_, bind_ok.mpr ⟨written, run, rfl⟩, rfl⟩
    | pop =>
      obtain ⟨written, run, ok, _, same⟩ := consistent.batchWrite
      exact ⟨(written, .done), bind_ok.mpr ⟨written, run, rfl⟩, related.of_live ok same, trivial⟩

/-- Flushing every cache leaves a database that says what the stack said. -/
theorem flushCaches_ok {n} {view : CCoinsView} (consistent : view.Consistent)
    (depth : view.depth = n)
    : ∃ disk, view.flushCaches n = .ok (.db disk)
      ∧ ∀ txid, live ((CCoinsView.db disk).coinsAt txid) = live (view.coinsAt txid) := by
  induction n generalizing view with
  | zero =>
    cases view with
    | db disk => exact ⟨disk, rfl, fun _ => rfl⟩
    | cache cacheCoins base => cases depth
  | succ n ih =>
    cases view with
    | db disk => cases depth
    | cache cacheCoins base =>
      obtain ⟨written, run, ok, sameDepth, same⟩ := consistent.batchWrite
      obtain ⟨disk, rest, flushed⟩ := ih ok (sameDepth.trans (Nat.succ.inj depth))
      refine ⟨disk, bind_ok.mpr ⟨written, run, rest⟩, fun txid => ?_⟩
      rw [flushed, same]

theorem related_plain (obs : CCoins → ω) (disk : CCoinsViewDB)
    : Related obs (.db disk) disk.plain where
  consistent := trivial
  same txid := by rw [disk.lookup_plain, observe]
  unspent txid := by rw [disk.lookup_plain, live_live]
  clean txid found mem := by
    rw [disk.lookup_plain] at mem
    obtain ⟨stored, _, rfl⟩ := Option.map_eq_some_iff.mp (mem_of_mem_live mem)
    exact stored.clean_cleanup

/-- The operations succeed, answer like the map, and after all caches are flushed the
database holds the map, as far as it is observed.
-/
def Refines (obs : CCoins → ω) (disk : CCoinsViewDB) (ops : List Op) : Prop :=
  ∃ view answers flushed,
    run step (.db disk) ops = .ok (view, answers)
    ∧ List.Forall₂ (Answer.Agrees obs) answers (runSpec spec disk.plain ops).2
    ∧ view.flushAll = .ok (.db flushed)
    ∧ ∀ txid, (flushed.plain.lookup txid).map obs
        = ((runSpec spec disk.plain ops).1.lookup txid).map obs

theorem refines_of_respects {obs : CCoins → ω} {disk} {ops}
    (discipline : Allowed step Disciplined (.db disk) ops)
    (respects : ∀ op ∈ ops, op.Edits (Respects obs))
    : Refines obs disk ops := by
  obtain ⟨⟨view, answers⟩, finished, related, agree⟩ :=
    (step_simulates obs).run_ok (related_plain obs disk) (discipline.and respects)
  obtain ⟨flushed, flush, same⟩ := flushCaches_ok related.consistent rfl
  refine ⟨view, answers, flushed, finished, agree, flush, fun txid => ?_⟩
  rw [← related.same txid, observe, ← same txid, flushed.lookup_plain]

/-- The outputs after the edit depend on the outputs before it only. -/
def EditsOutputs (edit : CCoins → CCoins) : Prop :=
  ∀ a b : CCoins, a.vout = b.vout → (edit a).vout = (edit b).vout

/-- Where the edit gives outputs to fully spent coins, it also sets their height, version and
coinbase flag.
-/
def ResetsSpent (edit : CCoins → CCoins) : Prop :=
  ∀ a : CCoins, a.vout = [] →
    live (some (edit a).cleanup) = live (some (edit .clear).cleanup)

/-- Coins that look the same are both spent or have the same observation. -/
theorem observe_cases {obs : CCoins → ω} {a b} (cleanA : a.Clean) (cleanB : b.Clean)
    (same : observe obs (some a) = observe obs (some b))
    : a.vout = [] ∧ b.vout = [] ∨ obs a = obs b := by
  rw [cleanA.vout_eq_nil_iff, cleanB.vout_eq_nil_iff]
  cases prunedA : a.isPruned <;> cases prunedB : b.isPruned <;>
    simp_all [observe, live_pruned, live_eq_self]

theorem EditsOutputs.respects {edit} (edits : EditsOutputs edit)
    : Respects vout edit := by
  intro a b cleanA cleanB same
  have outputs : a.vout = b.vout := by
    rcases observe_cases cleanA cleanB same with ⟨spentA, spentB⟩ | same
    · rw [spentA, spentB]
    · exact same
  have edited : (edit a).cleanup.vout = (edit b).cleanup.vout := by
    simp [cleanup, edits a b outputs]
  have pruned : (edit a).cleanup.isPruned = (edit b).cleanup.isPruned := by
    simp only [isPruned, edited]
  cases prunedB : (edit b).cleanup.isPruned with
  | true => rw [observe, observe, live_pruned (pruned.trans prunedB), live_pruned prunedB]
  | false =>
    rw [observe, observe, live_eq_self (pruned.trans prunedB), live_eq_self prunedB]
    exact congrArg some edited

theorem ResetsSpent.respects {edit} (resets : ResetsSpent edit)
    : Respects id edit := by
  intro a b cleanA cleanB same
  rcases observe_cases cleanA cleanB same with ⟨spentA, spentB⟩ | same
  · rw [observe, observe, resets a spentA, resets b spentB]
  · rw [show a = b from same]

/-- A stack of caches answers every query as one map does: always as to the outputs, and as
to the whole coins if edits that give outputs to fully spent coins set the rest too.
-/
theorem caches_refine_map (disk : CCoinsViewDB) {ops : List Op}
    (discipline : Allowed step Disciplined (.db disk) ops)
    : ((∀ op ∈ ops, op.Edits EditsOutputs) → Refines CCoins.vout disk ops)
      ∧ ((∀ op ∈ ops, op.Edits ResetsSpent) → Refines id disk ops) := by
  constructor
  · intro edits
    refine refines_of_respects discipline fun op mem => ?_
    have property := edits op mem
    cases op with
    | modifyCoins txid edit => exact EditsOutputs.respects property
    | _ => trivial
  · intro resets
    refine refines_of_respects discipline fun op mem => ?_
    have property := resets op mem
    cases op with
    | modifyCoins txid edit => exact ResetsSpent.respects property
    | _ => trivial

section Examples

-- A transaction of height 7 with one output, and edits that change its outputs only.
def oneOutput : CTxOut := { nValue := 1 }
def createAt7 : Op := .modifyNewCoins .null fun _ => { vout := [oneOutput], nHeight := 7 }
def spendAll : Op := .modifyCoins .null fun coins => { coins with vout := [] }
def restore : Op := .modifyCoins .null fun coins => { coins with vout := [oneOutput] }

theorem caches_refine_map_spend
    : Refines CCoins.vout { coins := ∅ }
        [.push, createAt7, .push, spendAll, .haveCoins .null, .flush, .pop, .getCoins .null] := by
  refine (caches_refine_map _ ?_).1 ?_
  · exact .cons rfl trivial <| .cons rfl ⟨nofun, nofun⟩ <| .cons rfl trivial <|
      .cons rfl trivial <| .cons rfl trivial <| .cons rfl trivial <| .cons rfl trivial <|
      .cons rfl trivial trivial
  · simp [createAt7, spendAll, Op.Edits, EditsOutputs]

/-- With edits that change outputs only, the height of coins that were spent and restored
depends on where the caches lie, so no map can give it.
-/
theorem restored_height_depends_on_push
    : (run step (.db { coins := ∅ })
          [.push, createAt7, spendAll, restore, .getCoins .null]).map Prod.snd
        = .ok [.done, .done, .done, .done, .coins (some { vout := [oneOutput], nHeight := 0 })]
      ∧ (run step (.db { coins := ∅ })
          [.push, createAt7, .push, spendAll, restore, .getCoins .null]).map Prod.snd
        = .ok [.done, .done, .done, .done, .done,
            .coins (some { vout := [oneOutput], nHeight := 7 })]
      ∧ (runSpec spec (CCoinsViewDB.plain { coins := ∅ })
          [.push, createAt7, .push, spendAll, restore, .getCoins .null]).2
        = [.done, .done, .done, .done, .done, .coins (some { vout := [oneOutput], nHeight := 0 })]
      ∧ Allowed step Disciplined (.db { coins := ∅ })
          [.push, createAt7, .push, spendAll, restore, .getCoins .null] :=
  ⟨rfl, rfl, rfl, .cons rfl trivial <| .cons rfl ⟨nofun, nofun⟩ <| .cons rfl trivial <|
    .cons rfl trivial <| .cons rfl trivial <| .cons rfl trivial trivial⟩

end Examples

end Resistance.Coins

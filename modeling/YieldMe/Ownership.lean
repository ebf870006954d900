/-
  Ownership.lean --- when the pass is recorded as purchased.

  Two completions store `purchasedPass`: the one of a purchase and, word for
  word the same, the one of a deposit.  The record is sound exactly in the runs
  in which every deposit that succeeds comes after a purchase that did.
-/
import YieldMe.Flows

set_option autoImplicit false

namespace YieldMe

open CircleNetworking Durable Transition

/-- The body of a request asks for a call to `buyPass`. -/
def URLRequest.isBuyPass (request : URLRequest) : Prop :=
  ∃ model, request.httpBody = some (.contractExecutionChallenge model) ∧
    PremiumPassView.isBuyPass model

/-- The completion of a purchase with result `.success`, for a challenge its
`buyPass` request created. -/
def BuysPass (e : Transit) : Prop :=
  ∃ view task app t challenge request,
    e.label = .act ((Flow.mint view task).action (.completion .success)) ∧
    e.before.memory = some app ∧ app.transaction? (.mint view task) = some t ∧
    t.stage = .executing challenge ∧ t.sent = some request ∧ request.isBuyPass

/-- The completion of a deposit with result `.success`. -/
def DepositSucceeds (e : Transit) : Prop :=
  ∃ view task, e.label = .act ((Flow.deposit view task).action (.completion .success))

/-- Whenever the pass is stored as purchased, it was bought before. -/
def OwnershipIsBought (history : List Transit) : Prop :=
  ∀ earlier e later, history = earlier ++ e :: later →
    e.after.stored.purchasedPass = true → ∃ b ∈ earlier ++ [e], BuysPass b

/-- The request is sent and the task is not over. -/
def Transaction.Stage.isSent : Transaction.Stage → Bool
  | .requesting => true
  | .ready _ => true
  | .executing _ => true
  | _ => false

/-- The purchases that sent a request asked for `buyPass`. -/
def PurchasesAsk (_defaults : UserDefaultsManager) (app : App) : Prop :=
  app.AllTransactions fun flow t => ∀ view task, flow = .mint view task →
    t.stage.isSent = true → ∃ request, t.sent = some request ∧ request.isBuyPass

theorem PurchasesAsk.acts {defaults : UserDefaultsManager} {app app' : App}
    {action : Action} {e : AppEffect App} (h : app.Acts defaults action e)
    (hnext : e.next = .ok app') (hask : PurchasesAsk defaults app) :
    PurchasesAsk (machine.writeAll defaults e.writes) app' := by
  refine h.transactions hnext (fun _ _ ht => ht) ?_ ?_ hask
  · intro _ _ _ _ hsent
    cases hsent
  · rintro flow t code event inner t' _ _ hcode ht hstep _ ht' view task rfl hsent
    cases hstep with
    | trapped _ _ => cases ht'
    | @requested key model hstage hmodel =>
        have hinj := Except.ok.inj ht'
        subst hinj
        refine ⟨_, rfl, model, rfl, ?_⟩
        cases hcode with
        | mint view => exact (PremiumPassView.passRequestModel_spec hmodel).1
    | returned _ _ | completed _ =>
        have hinj := Except.ok.inj ht'
        subst hinj
        cases hsent
    | passed hstage _ | executed hstage =>
        have hinj := Except.ok.inj ht'
        subst hinj
        exact ht view task rfl (by rw [hstage]; rfl)

theorem purchasesAsk_of_run {history : List Transit} {s : Installed}
    (run : Run machine.Step freshInstall history s) {app : App}
    (hmemory : s.memory = some app) : PurchasesAsk s.stored app := by
  refine Machine.run_memory_holds PurchasesAsk rfl ?_ ?_ run hmemory
  · intro defaults flow t ht
    simp [machine] at ht
  · intro defaults app action e app' hask he hnext
    exact hask.acts (acts_of_step he) hnext

/-- The pass is stored by a completion with result `.success` only. -/
theorem completion_of_purchasedPass {s s' : Installed} {l : Label Action}
    (h : machine.Step s l s') (hbefore : s.stored.purchasedPass = false)
    (hafter : s'.stored.purchasedPass = true) :
    ∃ flow app t challenge, l = .act (flow.action (.completion .success)) ∧
      s.memory = some app ∧ app.transaction? flow = some t ∧
      t.stage = .executing challenge := by
  cases l with
  | act action =>
      obtain ⟨app, e, hmemory, he, hstored, -⟩ := h.act_inv
      have hwrites := (acts_of_step he).writes
      rw [hstored] at hafter
      generalize e.writes = writes at hwrites hafter
      cases hwrites with
      | @pass flow t challenge haction htask hstage =>
          exact ⟨flow, app, t, challenge, by rw [haction], hmemory, htask, hstage⟩
      | _ => exact absurd (hbefore.symm.trans hafter) (by decide)
  | _ =>
      rw [h.stored_eq (by simp), hbefore] at hafter
      cases hafter

/-- A completion with result `.success` stores the pass. -/
theorem purchasedPass_of_completion {s s' : Installed} {flow : Flow}
    (h : machine.Step s (.act (flow.action (.completion .success))) s') :
    s'.stored.purchasedPass = true := by
  obtain ⟨app, e, _, he, hstored, _⟩ := h.act_inv
  rw [hstored, (acts_of_step he).writes_of_success]
  rfl

theorem bought_of_preceded {history : List Transit} {s : Installed}
    (run : Run machine.Step freshInstall history s)
    (hpreceded : Preceded DepositSucceeds BuysPass history)
    (hpass : s.stored.purchasedPass = true) : ∃ b ∈ history, BuysPass b := by
  revert hpreceded hpass
  refine run.history_rule (fun history s => Preceded DepositSucceeds BuysPass history →
    s.stored.purchasedPass = true → ∃ b ∈ history, BuysPass b) ?_ ?_
  · intro _ hpass
    cases hpass
  · intro history s l s' run ih h hpreceded hpass
    by_cases hbefore : s.stored.purchasedPass = true
    · exact exists_mem_concat.mpr (.inl (ih hpreceded.of_append hbefore))
    · rw [Bool.not_eq_true] at hbefore
      obtain ⟨flow, app, t, challenge, hlabel, hmemory, htask, hstage⟩ :=
        completion_of_purchasedPass h hbefore hpass
      cases flow with
      | mint view task =>
          obtain ⟨request, hsent, hbuy⟩ := purchasesAsk_of_run run hmemory _ t htask
            view task rfl (by rw [hstage]; rfl)
          exact exists_mem_concat.mpr (.inr ⟨view, task, app, t, challenge, request, hlabel,
            hmemory, htask, hstage, hsent, hbuy⟩)
      | deposit view task =>
          have hbought := hpreceded history _ [] rfl ⟨view, task, hlabel⟩
          exact exists_mem_concat.mpr (.inl hbought)

/-- Ownership is never recorded without a purchase exactly in the runs in which
every deposit that succeeds comes after a purchase that did. -/
theorem ownershipIsBought_iff {history : List Transit} {s : Installed}
    (run : Run machine.Step freshInstall history s) :
    OwnershipIsBought history ↔ Preceded DepositSucceeds BuysPass history := by
  constructor
  · rintro hbought earlier ⟨before, l, after⟩ later rfl ⟨view, task, rfl⟩
    have hpass := purchasedPass_of_completion run.cut.2
    rcases exists_mem_concat.mp (hbought earlier _ later rfl hpass) with hearlier | hbuys
    · exact hearlier
    · -- a deposit is no purchase
      obtain ⟨_, _, _, _, _, _, hlabel, _⟩ := hbuys
      cases hlabel
  · rintro hpreceded earlier e later rfl hpass
    obtain ⟨hrun, h⟩ := run.cut
    exact bought_of_preceded (hrun.snoc h) hpreceded.upto hpass

theorem ownershipIsBought_of_purchase :
    ∃ history s, Run machine.Step freshInstall history s ∧
      s.stored.purchasedPass = true ∧ OwnershipIsBought history := by
  have hend : (replay machine.perform freshInstall
      (signedInSchedule ++ tapPurchaseSchedule ++
        (Flow.mint 0 0).schedule (Transaction.untilCompletion ++ [.completion .success]))).map
      (fun s => s.stored.purchasedPass) = some true := by
    decide
  obtain ⟨history, s, run, hlabels, hpass⟩ := exists_run_of_schedule _ hend
  refine ⟨history, s, run, hpass, (ownershipIsBought_iff run).mpr ?_⟩
  rintro earlier e later rfl ⟨view, task, hlabel⟩
  have hmem := label_mem hlabels (List.mem_append_right earlier List.mem_cons_self)
  rw [hlabel] at hmem
  simp [signedInSchedule, tapPurchaseSchedule, signInSchedule, SignIn.untilQuery,
    SignIn.walletResponse, Flow.schedule, Flow.action, Transaction.untilCompletion] at hmem

theorem ownership_without_purchase :
    ¬ ∀ (history : List Transit) (s : Installed),
      Run machine.Step freshInstall history s → s.stored.purchasedPass = true →
        ∃ b ∈ history, BuysPass b := by
  intro hall
  have hend : (replay machine.perform freshInstall
      (signedInSchedule ++ tapDepositSchedule ++
        (Flow.deposit 0 0).schedule (Transaction.untilCompletion ++ [.completion .success]))).map
      (fun s => s.stored.purchasedPass) = some true := by
    decide
  obtain ⟨history, s, run, hlabels, hpass⟩ := exists_run_of_schedule _ hend
  obtain ⟨b, hb, view, task, _, _, _, _, hlabel, _⟩ := hall history s run hpass
  have hmem := label_mem hlabels hb
  rw [hlabel] at hmem
  simp [signedInSchedule, tapDepositSchedule, signInSchedule, SignIn.untilQuery,
    SignIn.walletResponse, Flow.schedule, Flow.action, Transaction.untilCompletion] at hmem

end YieldMe

/-
  Busy.lean --- the busy flags of the views and the tasks they are to guard.

  `isProcessingDeposit` disables the Deposit button, so it guards the deposits of
  a page.  `isLoading` and `isLoadingMint` only change the label of their
  buttons; they guard their tasks in the runs whose user never taps a button
  that says it is loading, and in no others.

  All three flags are raised by the tap.  The two of the transactions are
  lowered by the completion and by nothing else, so a task that returns at one
  of its guards leaves its flag as it was.
-/
import YieldMe.Flows

set_option autoImplicit false

namespace YieldMe

open CircleNetworking Durable Tasks Transition

/-! ## What a transaction does to the flag of its view -/

/-- The flag of a view after a step of one of its transactions. -/
def Transaction.Event.flagAfter (event : Transaction.Event) (busy : Bool) : Bool :=
  match event with
  | .completion _ => false
  | _ => busy

@[simp] theorem PremiumPassView.isLoadingMint_afterMint (view : PremiumPassView)
    (task : Nat) (event : Transaction.Event) (t : Transaction) :
    (view.afterMint task event t).isLoadingMint = event.flagAfter view.isLoadingMint := by
  cases event <;> rfl

@[simp] theorem ProtocolDetailView.isProcessingDeposit_afterDeposit
    (view : ProtocolDetailView) (task : Nat) (event : Transaction.Event) (t : Transaction) :
    (view.afterDeposit task event t).isProcessingDeposit =
      event.flagAfter view.isProcessingDeposit := by
  cases event <;> rfl

/-- A flag that guards the transactions of a view guards them after a step of one
of them: it goes down only when the transaction in progress ends. -/
theorem Transaction.Step.singleFlight {code : TransactionCode}
    {defaults : UserDefaultsManager} {t t' : Transaction} {event : Transaction.Event}
    {e : AppEffect Transaction} (h : t.Step code defaults event e)
    (hnext : e.next = .ok t') {busy : Bool} {tasks : List Transaction} {task : Nat}
    (htask : tasks[task]? = some t)
    (hsingle : SingleFlight Transaction.inProgress busy tasks) :
    SingleFlight Transaction.inProgress (event.flagAfter busy) (tasks.set task t') := by
  have hlive := h.inProgress_before
  cases event with
  | completion result =>
      have hover : t'.inProgress = false := by
        rw [Transaction.inProgress, (h.of_completion hnext).1]
      exact hsingle.finish htask hlive hover false
  | _ => exact hsingle.progress htask fun _ => hlive

/-! ## Deposits -/

/-- The flag of a page guards its deposits. -/
def ProtocolDetailView.SingleDeposit (view : ProtocolDetailView) : Prop :=
  SingleFlight Transaction.inProgress view.isProcessingDeposit view.deposits

theorem ProtocolDetailView.SingleDeposit.acts {defaults : UserDefaultsManager}
    {view view' : ProtocolDetailView} {event : ProtocolDetailView.Event}
    {e : AppEffect ProtocolDetailView} (h : view.Acts defaults event e)
    (hnext : e.next = .ok view') (hsingle : view.SingleDeposit) : view'.SingleDeposit := by
  unfold ProtocolDetailView.SingleDeposit at *
  cases h with
  | tapDeposit hidle =>
      have hview := Except.ok.inj hnext
      subst hview
      rw [hidle] at hsingle
      exact hsingle.spawn {}
  | deposit htask hstep =>
      obtain ⟨t', ht', hview⟩ := Effect.map_next_ok hnext
      subst hview
      rw [deposits_afterDeposit, isProcessingDeposit_afterDeposit]
      exact hstep.singleFlight ht' htask hsingle
  | other _ _ _ hsame =>
      obtain ⟨hdeposits, hbusy⟩ := hsame view' hnext
      rw [hdeposits, hbusy]
      exact hsingle

theorem singleDeposit_of_run {history : List Transit} {s : Installed}
    (run : Run machine.Step freshInstall history s) {app : App}
    (hmemory : s.memory = some app) : ∀ view ∈ app.detailViews, view.SingleDeposit := by
  refine Machine.run_memory_holds
    (fun _ app => ∀ view ∈ app.detailViews, view.SingleDeposit) rfl ?_ ?_ run hmemory
  · intro defaults view hview
    cases hview
  · intro defaults app action e app' hsingle he hnext
    refine (App.step_of_some he).detailViews hnext (fun _ => .nil false) ?_ hsingle
    intro _ _ view view' _ _ _ hstep hview' hview
    exact hview.acts hstep.acts hview'

/-- At most one deposit of a page is in flight, and none while its button is
enabled. -/
theorem at_most_one_deposit {history : List Transit} {s : Installed}
    (run : Run machine.Step freshInstall history s) {app : App}
    (hmemory : s.memory = some app) {view : ProtocolDetailView}
    (hview : view ∈ app.detailViews) :
    view.deposits.countP Transaction.inProgress ≤ 1 ∧
      (view.isProcessingDeposit = false →
        view.deposits.countP Transaction.inProgress = 0) := by
  have hsingle := singleDeposit_of_run run hmemory view hview
  exact ⟨hsingle.atMostOne, hsingle.idle⟩

theorem at_most_one_deposit_of_tap :
    ∃ history s app view, Run machine.Step freshInstall history s ∧
      s.memory = some app ∧ view ∈ app.detailViews ∧
      view.deposits.countP Transaction.inProgress = 1 ∧
      view.deposits.countP Transaction.inProgress ≤ 1 := by
  have hend : (replay machine.perform freshInstall
      (signedInSchedule ++ tapDepositSchedule)).map (fun s =>
        s.memory.bind fun app => app.detailViews[0]?.map fun view =>
          view.deposits.countP Transaction.inProgress) = some (some 1) := by
    decide
  obtain ⟨history, s, run, -, hcount⟩ := exists_run_of_schedule _ hend
  obtain ⟨app, hmemory, hcount⟩ := Option.bind_eq_some_iff.mp hcount
  obtain ⟨view, hview, hcount⟩ := Option.map_eq_some_iff.mp hcount
  have hmem := List.mem_of_getElem? hview
  exact ⟨history, s, app, view, run, hmemory, hmem, hcount,
    (at_most_one_deposit run hmemory hmem).1⟩

/-! ## Purchases and sign-ins -/

/-- The flag of a sheet guards its purchases. -/
def PremiumPassView.SingleMint (view : PremiumPassView) : Prop :=
  SingleFlight Transaction.inProgress view.isLoadingMint view.mints

/-- The label of the sign-in button, or its absence, guards the sign-ins. -/
def ContentView.SingleSignIn (view : ContentView) : Prop :=
  SingleFlight SignIn.inProgress (view.isLoading || view.walletAddress.isSome) view.signIns

/-- A tap of a button while its label says it is loading. -/
inductive TapWhileBusy : Transit → Prop
  | signIn {before after : Installed} {app : App} (hmemory : before.memory = some app)
      (hbusy : app.contentView.isLoading = true) :
      TapWhileBusy ⟨before, .act (.content .tapSignIn), after⟩
  | mint {before after : Installed} {app : App} {index : Nat} {view : PremiumPassView}
      (hmemory : before.memory = some app) (hview : app.passViews[index]? = some view)
      (hbusy : view.isLoadingMint = true) :
      TapWhileBusy ⟨before, .act (.pass index .tapPurchase), after⟩

/-- How many flows the root screen and every sheet have started. -/
def App.flowsStarted (app : App) : Nat × List Nat :=
  (app.contentView.signIns.length, app.passViews.map (·.mints.length))

/-- At most one flow of each kind in progress at any moment, and no flow started
by a tap while the button says it is loading. -/
def NoFlowTwice (history : List Transit) : Prop :=
  ∀ e ∈ history,
    (∀ app, e.after.memory = some app →
      app.contentView.signIns.countP SignIn.inProgress ≤ 1 ∧
        ∀ view ∈ app.passViews, view.mints.countP Transaction.inProgress ≤ 1) ∧
    (TapWhileBusy e → ∀ app app', e.before.memory = some app →
      e.after.memory = some app' → app'.flowsStarted = app.flowsStarted)

/-- The flags guard the flows of a process. -/
def SingleFlows (_defaults : UserDefaultsManager) (app : App) : Prop :=
  app.contentView.SingleSignIn ∧ ∀ view ∈ app.passViews, view.SingleMint

theorem ContentView.SingleSignIn.acts {defaults : UserDefaultsManager}
    {view view' : ContentView} {event : ContentView.Event} {e : AppEffect ContentView}
    (h : view.Acts defaults event e) (hnext : e.next = .ok view')
    (htap : event = .tapSignIn → view.isLoading = false) (hsingle : view.SingleSignIn) :
    view'.SingleSignIn := by
  unfold ContentView.SingleSignIn at *
  cases h with
  | tapSignIn hshown =>
      have hinj := Except.ok.inj hnext
      subst hinj
      rw [htap rfl, hshown] at hsingle
      exact hsingle.spawn .started
  | other _ _ _ hsame =>
      obtain ⟨hsignIns, hloading, haddress⟩ := hsame view' hnext
      rw [hsignIns, hloading]
      refine hsingle.raise fun hdown => ?_
      simp only [Bool.or_eq_false_iff] at hdown ⊢
      refine ⟨hdown.1, ?_⟩
      by_contra hstored
      rw [Bool.not_eq_false] at hstored
      have hstored' := haddress hstored
      rw [hdown.2] at hstored'
      cases hstored'
  | @signIn task flow event _ htask hstep =>
      cases hstep with
      | noSession _ | noAccount _ => cases hnext
      | noWallet _ =>
          have hinj := Except.ok.inj hnext
          subst hinj
          exact hsingle
      | gotWallet _ =>
          have hinj := Except.ok.inj hnext
          subst hinj
          exact (hsingle.progress htask fun _ => rfl).raise fun hdown => by
            simp [ContentView.walletFound] at hdown
      | _ =>
          have hinj := Except.ok.inj hnext
          subst hinj
          exact hsingle.progress htask fun _ => rfl

theorem PremiumPassView.SingleMint.acts {defaults : UserDefaultsManager}
    {view view' : PremiumPassView} {event : PremiumPassView.Event}
    {e : AppEffect PremiumPassView} (h : view.Acts defaults event e)
    (hnext : e.next = .ok view') (htap : event = .tapPurchase → view.isLoadingMint = false)
    (hsingle : view.SingleMint) : view'.SingleMint := by
  unfold PremiumPassView.SingleMint at *
  cases h with
  | tapPurchase _ _ =>
      have hinj := Except.ok.inj hnext
      subst hinj
      rw [htap rfl] at hsingle
      exact hsingle.spawn {}
  | mint htask hstep =>
      obtain ⟨t', ht', hview⟩ := Effect.map_next_ok hnext
      subst hview
      rw [mints_afterMint, isLoadingMint_afterMint]
      exact hstep.singleFlight ht' htask hsingle
  | other _ _ _ hsame =>
      obtain ⟨hmints, hbusy⟩ := hsame view' hnext
      rw [hmints, hbusy]
      exact hsingle

theorem SingleFlows.step {s : Installed} {app app' : App} {action : Action}
    {e : AppEffect App} {after : Installed} (hmemory : s.memory = some app)
    (h : app.Step s.stored action e) (hnext : e.next = .ok app')
    (htap : ¬ TapWhileBusy ⟨s, .act action, after⟩) (hsingle : SingleFlows s.stored app) :
    SingleFlows (machine.writeAll s.stored e.writes) app' := by
  obtain ⟨hsignIn, hmint⟩ := hsingle
  constructor
  · refine h.contentView hnext (fun _ hview => hview) ?_ hsignIn
    rintro event view' inner rfl hstep _ hview'
    apply hsignIn.acts hstep.acts hview'
    rintro rfl
    by_contra hbusy
    exact htap (.signIn hmemory (by simpa using hbusy))
  · refine h.passViews hnext (.nil false) ?_ hmint
    rintro index event view view' inner rfl hview hstep hview' hsingle
    apply hsingle.acts hstep.acts hview'
    rintro rfl
    by_contra hbusy
    exact htap (.mint hmemory hview (by simpa using hbusy))

theorem singleFlows_of_run {history : List Transit} {s : Installed}
    (run : Run machine.Step freshInstall history s)
    (hidle : ∀ e ∈ history, ¬ TapWhileBusy e) {app : App} (hmemory : s.memory = some app) :
    SingleFlows s.stored app := by
  refine Machine.run_memory_holds_under SingleFlows (fun e => ¬ TapWhileBusy e) rfl ?_ ?_ run
    hidle hmemory
  · intro defaults
    refine ⟨.nil _, fun view hview => ?_⟩
    cases hview
  · intro s action s' app e app' htap hmemory hsingle he hnext
    exact hsingle.step hmemory (App.step_of_some he) hnext htap

/-- A tap while the button says it is loading starts a flow all the same. -/
theorem flowsStarted_of_tapWhileBusy {e : Transit} (htap : TapWhileBusy e)
    (h : machine.Step e.before e.label e.after) :
    ∃ app app', e.before.memory = some app ∧ e.after.memory = some app' ∧
      app'.flowsStarted ≠ app.flowsStarted := by
  cases htap with
  | @signIn before after app hmemory _ =>
      obtain ⟨e, he, -, hnext⟩ := h.act_of_memory hmemory
      cases acts_of_step he with
      | content hacts =>
          cases hacts with
          | tapSignIn _ =>
              refine ⟨app, _, hmemory, (hnext _).mpr rfl, fun hsame => ?_⟩
              have hlength := (Prod.mk.inj hsame).1
              simp [App.afterContent, ContentView.initiateSignIn] at hlength
          | other htap _ _ _ => exact absurd rfl htap
  | @mint before after app index view hmemory hview _ =>
      obtain ⟨e, he, -, hnext⟩ := h.act_of_memory hmemory
      cases acts_of_step he with
      | pass hview' hacts =>
          have hinj := Option.some.inj (hview.symm.trans hview')
          subst hinj
          cases hacts with
          | tapPurchase _ _ =>
              refine ⟨app, _, hmemory, (hnext _).mpr rfl, fun hsame => ?_⟩
              have hlengths := congrArg (fun flows : List Nat => flows[index]?)
                (Prod.mk.inj hsame).2
              have hlt := (List.getElem?_eq_some_iff.mp hview).1
              simp only [App.afterPass, List.map_set] at hlengths
              rw [List.getElem?_set_self (by simpa using hlt)] at hlengths
              simp [hview, PremiumPassView.initiatePassMint] at hlengths
          | other htap _ _ _ => exact absurd rfl htap

/-- No flow is started twice exactly in the runs without a tap of a button that
says it is loading. -/
theorem noFlowTwice_iff {history : List Transit} {s : Installed}
    (run : Run machine.Step freshInstall history s) :
    NoFlowTwice history ↔ ∀ e ∈ history, ¬ TapWhileBusy e := by
  constructor
  · intro htwice e he htap
    obtain ⟨_, _, _, _, h⟩ := run.of_mem he
    obtain ⟨app, app', hbefore, hafter, hstarted⟩ := flowsStarted_of_tapWhileBusy htap h
    exact hstarted ((htwice e he).2 htap app app' hbefore hafter)
  · intro hidle e he
    refine ⟨fun app hmemory => ?_, fun htap => absurd htap (hidle e he)⟩
    obtain ⟨upto, hrun, hsub⟩ := run.upto he
    obtain ⟨hsignIn, hmint⟩ :=
      singleFlows_of_run hrun (fun e' he' => hidle e' (hsub e' he')) hmemory
    exact ⟨hsignIn.atMostOne, fun view hview => (hmint view hview).atMostOne⟩

/-- The button that a label taps says that it is loading. -/
def Label.tapsBusy (s : Installed) : Label Action → Bool
  | .act (.content .tapSignIn) => s.memory.any (·.contentView.isLoading)
  | .act (.pass index .tapPurchase) =>
      (s.memory.bind fun app => app.passViews[index]?).any (·.isLoadingMint)
  | _ => false

theorem TapWhileBusy.tapsBusy {e : Transit} (h : TapWhileBusy e) :
    Label.tapsBusy e.before e.label = true := by
  cases h with
  | signIn hmemory hbusy => simp [Label.tapsBusy, hmemory, hbusy]
  | mint hmemory hview hbusy => simp [Label.tapsBusy, hmemory, hview, hbusy]

/-- A purchase is declined, which dismisses its sheet; the sheet is opened again, step 1
is repeated, and the button is tapped a second time. -/
def twoTapsSchedule : List (Label Action) :=
  signedInSchedule ++ tapPurchaseSchedule ++
  (Flow.mint 0 0).schedule (Transaction.untilCompletion ++ [.completion (.failure "declined")]) ++
  [.act (.content .tapBuyCommunityPass), .act (.pass 1 .tapWorldCoin),
    .act (.pass 1 (.worldCoin 0 (.start (some "url") true))),
    .act (.pass 1 (.worldCoin 0 (.poll (some (.confirmed ⟨"0x1", "0x2", "0x3", "orb"⟩))))),
    .act (.pass 1 .tapPurchase)] ++
  (Flow.mint 1 0).schedule (Transaction.untilCompletion ++ [.completion .success])

/-- The second purchase is started once the first is completed, and completed too. -/
theorem noFlowTwice_of_two_taps :
    ∃ history s, Run machine.Step freshInstall history s ∧
      history.map Edge.label = twoTapsSchedule ∧
      s.memory.map App.flowsStarted = some (1, [1, 1]) ∧
      s.stored.purchasedPass = true ∧ NoFlowTwice history := by
  have hend : (replay (checked (fun s label => !Label.tapsBusy s label) machine.perform)
      freshInstall twoTapsSchedule).map (fun s =>
        (s.memory.map App.flowsStarted, s.stored.purchasedPass)) =
      some (some (1, [1, 1]), true) := by
    decide
  obtain ⟨history, s, run, hlabels, hend, hidle⟩ :=
    exists_run_of_checked (fun _ _ _ => Machine.step_of_perform) _ _ hend
  obtain ⟨hstarted, hpass⟩ := Prod.mk.inj hend
  refine ⟨history, s, run, hlabels, hstarted, hpass,
    (noFlowTwice_iff run).mpr fun e he htap => ?_⟩
  have hpassed := hidle e he
  rw [htap.tapsBusy] at hpassed
  cases hpassed

/-- The purchase button is tapped again while the first purchase is pending. -/
def twoPurchasesSchedule : List (Label Action) :=
  signedInSchedule ++ tapPurchaseSchedule ++ [.act (.pass 0 .tapPurchase)] ++
  (Flow.mint 0 0).schedule [.start "first idempotency key"] ++
  (Flow.mint 0 1).schedule [.start "second idempotency key"]

theorem two_purchases_in_progress :
    ¬ ∀ (history : List Transit) (s : Installed),
      Run machine.Step freshInstall history s → NoFlowTwice history := by
  intro hall
  have hend : (replay machine.perform freshInstall twoPurchasesSchedule).map (fun s =>
      s.memory.bind fun app => app.passViews[0]?.map fun view =>
        view.mints.countP Transaction.inProgress) = some (some 2) := by
    decide
  obtain ⟨history, s, run, hlabels, hcount⟩ := exists_run_of_schedule _ hend
  obtain ⟨app, hmemory, hcount⟩ := Option.bind_eq_some_iff.mp hcount
  obtain ⟨view, hview, hcount⟩ := Option.map_eq_some_iff.mp hcount
  have hne : history ≠ [] := by
    rintro rfl
    cases hlabels
  obtain ⟨e, he, rfl⟩ := run.exists_last hne
  have hsingle := ((hall history _ run e he).1 app hmemory).2 view (List.mem_of_getElem? hview)
  omega

/-! ## The flag after a transaction -/

/-- A step of a transaction task and the flag of its view. -/
theorem App.Acts.busy?_eq {defaults : UserDefaultsManager} {app app' : App} {flow : Flow}
    {event : Transaction.Event} {e : AppEffect App}
    (h : app.Acts defaults (flow.action event) e) (hnext : e.next = .ok app') :
    app'.busy? flow = (app.busy? flow).map event.flagAfter := by
  cases flow with
  | mint index task =>
      cases h with
      | @pass _ view _ _ hview hacts =>
          have hlt := (List.getElem?_eq_some_iff.mp hview).1
          obtain ⟨view', hview', happ⟩ := Effect.map_next_ok hnext
          subst happ
          cases hacts with
          | other _ htask _ _ => exact absurd rfl (htask task event)
          | mint htask hstep =>
              obtain ⟨t', -, hafter⟩ := Effect.map_next_ok hview'
              subst hafter
              simp [App.busy?, App.afterPass, List.getElem?_set_self hlt, hview]
  | deposit index task =>
      cases h with
      | @detail _ view _ _ hview hacts =>
          have hlt := (List.getElem?_eq_some_iff.mp hview).1
          obtain ⟨view', hview', happ⟩ := Effect.map_next_ok hnext
          subst happ
          cases hacts with
          | other _ htask _ _ => exact absurd rfl (htask task event)
          | deposit htask hstep =>
              obtain ⟨t', -, hafter⟩ := Effect.map_next_ok hview'
              subst hafter
              simp [App.busy?, App.afterDetail, List.getElem?_set_self hlt, hview]

/-- The flag of the view of a task is up or down. -/
theorem App.busy?_isSome {app : App} {flow : Flow} {t : Transaction}
    (ht : app.transaction? flow = some t) : ∃ busy, app.busy? flow = some busy := by
  cases flow with
  | mint view task =>
      obtain ⟨v, hv, -⟩ := Option.bind_eq_some_iff.mp ht
      exact ⟨v.isLoadingMint, by rw [App.busy?, hv, Option.map_some]⟩
  | deposit view task =>
      obtain ⟨v, hv, -⟩ := Option.bind_eq_some_iff.mp ht
      exact ⟨v.isProcessingDeposit, by rw [App.busy?, hv, Option.map_some]⟩

/-- A deposit in progress keeps its page busy. -/
theorem busy_of_deposit {history : List Transit} {s : Installed}
    (run : Run machine.Step freshInstall history s) {app : App}
    (hmemory : s.memory = some app) {view task : Nat} {t : Transaction}
    (ht : app.transaction? (.deposit view task) = some t) (hlive : t.inProgress = true) :
    app.busy? (.deposit view task) = some true := by
  obtain ⟨v, hv, ht⟩ := Option.bind_eq_some_iff.mp ht
  have hsingle := singleDeposit_of_run run hmemory v (List.mem_of_getElem? hv)
  rw [App.busy?, hv]
  exact congrArg some (hsingle.busy_of_live ht hlive)

/-- A transaction that ends leaves the flag of its view down exactly when it ends
with its completion, or is a purchase that found the flag down already. -/
theorem idle_after_end_iff {history : List Transit} {s : Installed}
    (run : Run machine.Step freshInstall history s) {flow : Flow} {e : Transit}
    (he : e ∈ history) (hends : Ends flow e) :
    e.after.busy? flow = some false ↔
      (∃ result, e.label = .act (flow.action (.completion result))) ∨
        (∃ view task, flow = .mint view task) ∧ e.before.busy? flow = some false := by
  obtain ⟨earlier, later, -, hrun, h⟩ := run.of_mem he
  obtain ⟨app, app', t, t', code, event, effect, inner, hmemory, hmemory', ht, -, hlabel,
    hacts, hnext, -, hstep, hinner, hover⟩ := hends.cases h
  obtain ⟨busy, hbefore⟩ := App.busy?_isSome ht
  have hafter := hacts.busy?_eq hnext
  rw [hbefore, Option.map_some] at hafter
  rw [Installed.busy?, Installed.busy?, hmemory, hmemory', Option.bind_some,
    Option.bind_some, hafter, hbefore, hlabel]
  rcases hstep.over hinner hover with ⟨outcome, hevent, -⟩ | ⟨result, hevent⟩
  · -- it returned at a guard
    subst hevent
    constructor
    · intro hdown
      refine .inr ⟨?_, hdown⟩
      cases flow with
      | mint view task => exact ⟨view, task, rfl⟩
      | deposit view task =>
          rw [busy_of_deposit hrun hmemory ht hstep.inProgress_before] at hbefore
          have hup := Option.some.inj hbefore
          subst hup
          cases hdown
    · rintro (⟨result, hresult⟩ | ⟨-, hdown⟩)
      · have hevent := (Flow.action_inj (Label.act.inj hresult)).2
        cases hevent
      · exact hdown
  · subst hevent
    exact ⟨fun _ => .inl ⟨result, rfl⟩, fun _ => rfl⟩

theorem idle_after_purchase :
    ∃ (history : List Transit) (s : Installed) (e : Transit),
      Run machine.Step freshInstall history s ∧ e ∈ history ∧ Ends (.mint 0 0) e ∧
        e.after.busy? (.mint 0 0) = some false := by
  have hend : ((replay machine.perform freshInstall (signedInSchedule ++ tapPurchaseSchedule ++
      (Flow.mint 0 0).schedule Transaction.untilCompletion)).bind fun s =>
        (machine.perform s (.act ((Flow.mint 0 0).action (.completion .success)))).map
          fun s' => (Installed.live? s (.mint 0 0), Installed.live? s' (.mint 0 0), ())) =
      some (some true, some false, ()) := by
    decide
  obtain ⟨history, s, e, run, he, hlabel, hends, -⟩ :=
    exists_end_of_schedule (.mint 0 0) (fun _ => ()) hend
  exact ⟨history, s, e, run, he, hends,
    (idle_after_end_iff run he hends).mpr (.inl ⟨_, hlabel⟩)⟩

theorem busy_after_failed_deposit :
    ¬ ∀ (history : List Transit) (s : Installed), Run machine.Step freshInstall history s →
      ∀ flow, ∀ e ∈ history, Ends flow e → e.after.busy? flow = some false := by
  intro hall
  have hend : ((replay machine.perform freshInstall (signedInSchedule ++ tapDepositSchedule ++
      (Flow.deposit 0 0).schedule [.start "idempotency key"])).bind fun s =>
        (machine.perform s (.act ((Flow.deposit 0 0).action (.response .error)))).map
          fun s' => (Installed.live? s (.deposit 0 0), Installed.live? s' (.deposit 0 0),
            Installed.busy? s' (.deposit 0 0))) =
      some (some true, some false, some true) := by
    decide
  obtain ⟨history, s, e, run, he, -, hends, hbusy⟩ :=
    exists_end_of_schedule (.deposit 0 0) (Installed.busy? · (.deposit 0 0)) hend
  have hidle : Installed.busy? e.after (.deposit 0 0) = some false :=
    hall history s run (.deposit 0 0) e he hends
  rw [hbusy] at hidle
  cases hidle

end YieldMe

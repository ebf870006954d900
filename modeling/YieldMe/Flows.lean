/-
  Flows.lean --- the tasks of a process and the rules for laws about them.

  A transaction task is named by the view that spawned it and its number there.
  An action belongs to at most one task: `App.Acts.origin` names it,
  `App.Acts.writes` lists what it can write, and `App.Acts.transaction_cases`
  says where an entry of the next memory comes from: it was there, it is fresh,
  or its task just took the step.

  `App.Acts.transactions` and `App.Acts.signIns` turn this into the two rules
  for laws that hold of every task.
-/
import YieldMe.Steps

set_option autoImplicit false

namespace YieldMe

open CircleNetworking Durable Tasks Transition

/-- A transaction task of a process. -/
inductive Flow where
  | mint (view task : Nat)
  | deposit (view task : Nat)
  deriving DecidableEq, Repr

namespace Flow

/-- What happens to the process when `event` happens to the task. -/
def action : Flow → Transaction.Event → Action
  | .mint view task, event => .pass view (.mint task event)
  | .deposit view task, event => .detail view (.deposit task event)

/-- The code a task runs; it reads the state of its view. -/
inductive Runs : Flow → TransactionCode → Prop
  | mint {view task : Nat} (v : PremiumPassView) : Runs (.mint view task) v.mintCode
  | deposit {view task : Nat} (v : ProtocolDetailView) :
      Runs (.deposit view task) v.depositCode

theorem action_ne_content (flow : Flow) (event : Transaction.Event)
    (event' : ContentView.Event) : flow.action event ≠ .content event' := by
  cases flow <;> simp [action]

theorem action_inj {flow flow' : Flow} {event event' : Transaction.Event}
    (h : flow.action event = flow'.action event') : flow = flow' ∧ event = event' := by
  cases flow <;> cases flow' <;> cases h <;> exact ⟨rfl, rfl⟩

/-- What both completions write. -/
theorem Runs.writes_eq {flow : Flow} {code : TransactionCode} (h : flow.Runs code)
    (result : ExecuteResult) :
    code.writes result = if result = .success then [.purchasedPass true] else [] := by
  cases h <;> cases result <;> rfl

/-- What both tasks need of the settings before they send a request. -/
theorem Runs.walletID_of_requestModel {flow : Flow} {code : TransactionCode}
    (h : flow.Runs code) {defaults : UserDefaultsManager} {idempotencyKey : String}
    {model : ContractExecutionChallengeRequest}
    (hmodel : code.requestModel defaults idempotencyKey = .ok model) :
    defaults.walletID = some model.walletId := by
  cases h with
  | mint view => exact (PremiumPassView.passRequestModel_spec hmodel).2.2
  | deposit view => exact ProtocolDetailView.depositRequestModel_spec hmodel

end Flow

/-! ## Transaction tasks of one view -/

namespace PremiumPassView

@[simp] theorem mints_afterMint (view : PremiumPassView) (task : Nat)
    (event : Transaction.Event) (t : Transaction) :
    (view.afterMint task event t).mints = view.mints.set task t := by
  cases event <;> rfl

/-- Where a purchase task after a step of its sheet comes from. -/
theorem Acts.mint_cases {defaults : UserDefaultsManager} {view view' : PremiumPassView}
    {event : Event} {e : AppEffect PremiumPassView} (h : view.Acts defaults event e)
    (hnext : e.next = .ok view') {task : Nat} {t' : Transaction}
    (ht' : view'.mints[task]? = some t') :
    view.mints[task]? = some t' ∨ t' = {} ∨
      ∃ t inner effect, event = .mint task inner ∧ view.mints[task]? = some t ∧
        t.Step view.mintCode defaults inner effect ∧ e.writes = effect.writes ∧
        effect.next = .ok t' := by
  cases h with
  | tapPurchase _ _ =>
      have hview := Except.ok.inj hnext
      subst hview
      rcases getElem?_concat_cases ht' with ⟨-, hfresh⟩ | hold
      · exact .inr (.inl hfresh)
      · exact .inl hold
  | @mint moved t inner effect htask hstep =>
      obtain ⟨t'', heffect, hview⟩ := Effect.map_next_ok hnext
      subst hview
      rw [mints_afterMint] at ht'
      rcases getElem?_set_cases ht' with ⟨hmoved, hnew⟩ | ⟨_, hold⟩
      · subst hmoved hnew
        exact .inr (.inr ⟨t, inner, effect, rfl, htask, hstep, rfl, heffect⟩)
      · exact .inl hold
  | other _ _ _ hsame =>
      rw [(hsame view' hnext).1] at ht'
      exact .inl ht'

end PremiumPassView

namespace ProtocolDetailView

@[simp] theorem deposits_afterDeposit (view : ProtocolDetailView) (task : Nat)
    (event : Transaction.Event) (t : Transaction) :
    (view.afterDeposit task event t).deposits = view.deposits.set task t := by
  cases event <;> rfl

/-- Where a deposit task after a step of its page comes from. -/
theorem Acts.deposit_cases {defaults : UserDefaultsManager}
    {view view' : ProtocolDetailView} {event : Event} {e : AppEffect ProtocolDetailView}
    (h : view.Acts defaults event e) (hnext : e.next = .ok view') {task : Nat}
    {t' : Transaction} (ht' : view'.deposits[task]? = some t') :
    view.deposits[task]? = some t' ∨ t' = {} ∨
      ∃ t inner effect, event = .deposit task inner ∧ view.deposits[task]? = some t ∧
        t.Step view.depositCode defaults inner effect ∧ e.writes = effect.writes ∧
        effect.next = .ok t' := by
  cases h with
  | tapDeposit _ =>
      have hview := Except.ok.inj hnext
      subst hview
      rcases getElem?_concat_cases ht' with ⟨-, hfresh⟩ | hold
      · exact .inr (.inl hfresh)
      · exact .inl hold
  | @deposit moved t inner effect htask hstep =>
      obtain ⟨t'', heffect, hview⟩ := Effect.map_next_ok hnext
      subst hview
      rw [deposits_afterDeposit] at ht'
      rcases getElem?_set_cases ht' with ⟨hmoved, hnew⟩ | ⟨_, hold⟩
      · subst hmoved hnew
        exact .inr (.inr ⟨t, inner, effect, rfl, htask, hstep, rfl, heffect⟩)
      · exact .inl hold
  | other _ _ _ hsame =>
      rw [(hsame view' hnext).1] at ht'
      exact .inl ht'

end ProtocolDetailView

/-! ## Transaction tasks of a process -/

namespace App

/-- The state of a transaction task. -/
def transaction? (app : App) : Flow → Option Transaction
  | .mint view task => app.passViews[view]?.bind fun v => v.mints[task]?
  | .deposit view task => app.detailViews[view]?.bind fun v => v.deposits[task]?

/-- The busy flag of the view a transaction task belongs to. -/
def busy? (app : App) : Flow → Option Bool
  | .mint view _ => app.passViews[view]?.map (·.isLoadingMint)
  | .deposit view _ => app.detailViews[view]?.map (·.isProcessingDeposit)

variable {defaults : UserDefaultsManager} {app app' : App} {action : Action}
  {e : AppEffect App}

/-! ## Where a step comes from -/

/-- The task whose step an action is, if it is one. -/
inductive Origin (defaults : UserDefaultsManager) (app : App) (action : Action)
    (e : AppEffect App) : Prop
  | signIn {task : Nat} {flow : SignIn} {event : SignIn.Event}
      {inner : AppEffect ContentView}
      (haction : action = .content (.signIn task event))
      (htask : app.contentView.signIns[task]? = some flow)
      (hstep : app.contentView.SignInStep defaults task flow event inner)
      (hwrites : e.writes = inner.writes)
  | transaction {flow : Flow} {t : Transaction} {code : TransactionCode}
      {event : Transaction.Event} {inner : AppEffect Transaction}
      (haction : action = flow.action event) (htask : app.transaction? flow = some t)
      (hcode : flow.Runs code) (hstep : t.Step code defaults event inner)
      (hwrites : e.writes = inner.writes) (hcalls : e.calls = inner.calls)
  | noTask (hsignIn : ∀ task event, action ≠ .content (.signIn task event))
      (htransaction : ∀ flow event, action ≠ Flow.action flow event)
      (hwrites : e.writes = [])

theorem Acts.origin (h : app.Acts defaults action e) : app.Origin defaults action e := by
  cases h with
  | content h =>
      cases h with
      | signIn htask hstep => exact .signIn rfl htask hstep rfl
      | tapSignIn _ =>
          refine .noTask (by simp) (fun flow event => ?_) rfl
          cases flow <;> simp [Flow.action]
      | other _ htask hwrites _ =>
          refine .noTask (by simpa using htask) (fun flow event => ?_) hwrites
          cases flow <;> simp [Flow.action]
  | @pass index view event e hview h =>
      cases h with
      | @mint task t event e htask hstep =>
          have ht : app.transaction? (.mint index task) = some t := by
            simp [transaction?, hview, htask]
          have haction : Action.pass index (.mint task event) =
            (Flow.mint index task).action event := rfl
          exact .transaction haction ht (.mint view) hstep rfl rfl
      | tapPurchase _ _ =>
          refine .noTask (by simp) (fun flow event => ?_) rfl
          cases flow <;> simp [Flow.action]
      | other _ htask hwrites _ =>
          refine .noTask (by simp) (fun flow event => ?_) hwrites
          cases flow <;> simp [Flow.action, htask]
  | @detail index view event e hview h =>
      cases h with
      | @deposit task t event e htask hstep =>
          have ht : app.transaction? (.deposit index task) = some t := by
            simp [transaction?, hview, htask]
          have haction : Action.detail index (.deposit task event) =
            (Flow.deposit index task).action event := rfl
          exact .transaction haction ht (.deposit view) hstep rfl rfl
      | tapDeposit _ =>
          refine .noTask (by simp) (fun flow event => ?_) rfl
          cases flow <;> simp [Flow.action]
      | other _ htask hwrites _ =>
          refine .noTask (by simp) (fun flow event => ?_) hwrites
          cases flow <;> simp [Flow.action, htask]
  | openDetail _ =>
      refine .noTask (by simp) (fun flow event => ?_) rfl
      cases flow <;> simp [Flow.action]

/-! ## What a step writes -/

/-- The settings a step writes: none, a fresh user id, the credentials of a
session, a wallet, or the pass. -/
inductive Writes (app : App) (action : Action) : List SettingsWrite → Prop
  | nothing : Writes app action []
  | uuid {task : Nat} {newUuid : String}
      (haction : action = .content (.signIn task (.start newUuid))) :
      Writes app action [.uuid newUuid]
  | session {task : Nat} {session : SessionTokenResponse}
      {outcome : HTTPOutcome InitializeAccountResponse}
      (haction : action = .content (.signIn task (.account outcome)))
      (htask : app.contentView.signIns[task]? = some (.initializing session)) :
      Writes app action (ContentView.sessionWrites session)
  | wallet {task : Nat} {challenge : CircleChallenge} {wallet : Wallet}
      {outcome : HTTPOutcome WalletStatusResponse}
      (haction : action = .content (.signIn task (.walletStatus outcome)))
      (htask : app.contentView.signIns[task]? = some (.querying challenge))
      (hwallet : firstWallet (getWalletStatus.result outcome) = some wallet) :
      Writes app action (ContentView.walletWrites challenge wallet)
  | pass {flow : Flow} {t : Transaction} {challenge : CircleChallenge}
      (haction : action = flow.action (.completion .success))
      (htask : app.transaction? flow = some t) (hstage : t.stage = .executing challenge) :
      Writes app action [.purchasedPass true]

theorem Acts.writes (h : app.Acts defaults action e) : app.Writes action e.writes := by
  cases h.origin with
  | noTask _ _ hwrites =>
      rw [hwrites]
      exact .nothing
  | transaction haction htask hcode hstep hwrites _ =>
      rw [hwrites]
      cases hstep with
      | @completed challenge result hstage =>
          rw [hcode.writes_eq]
          cases result with
          | success => exact .pass haction htask hstage
          | failure displayString => exact .nothing
      | _ => exact .nothing
  | signIn haction htask hstep hwrites =>
      rw [hwrites]
      cases hstep with
      | started =>
          by_cases hstored : defaults.uuid.isSome = true
          · rw [if_pos hstored]
            exact .nothing
          · rw [if_neg hstored]
            exact .uuid haction
      | noAccount _ | gotAccount _ => exact .session haction htask
      | gotWallet hwallet => exact .wallet haction htask hwallet
      | _ => exact .nothing

/-- A completion with result `.success` writes the pass and nothing else. -/
theorem Acts.writes_of_success {flow : Flow}
    (h : app.Acts defaults (flow.action (.completion .success)) e) :
    e.writes = [.purchasedPass true] := by
  cases h.origin with
  | signIn haction _ _ _ => exact absurd haction (Flow.action_ne_content _ _ _)
  | noTask _ htransaction _ => exact absurd rfl (htransaction _ _)
  | transaction haction _ hcode hstep hwrites _ =>
      obtain ⟨-, rfl⟩ := Flow.action_inj haction
      cases hstep with
      | completed _ => rw [hwrites, hcode.writes_eq, if_pos rfl]

/-- No step removes a setting. -/
theorem Acts.stores (h : app.Acts defaults action e) : ∀ w ∈ e.writes, w.Stores := by
  intro w hw
  have hwrites := h.writes
  generalize e.writes = writes at hw hwrites
  cases hwrites with
  | nothing => cases hw
  | uuid _ =>
      have hinj := List.mem_singleton.mp hw
      subst hinj
      trivial
  | session _ _ | wallet _ _ _ =>
      simp only [ContentView.sessionWrites, ContentView.walletWrites, List.mem_cons,
        List.not_mem_nil, or_false] at hw
      rcases hw with rfl | rfl | rfl <;> rfl
  | pass _ _ _ =>
      have hinj := List.mem_singleton.mp hw
      subst hinj
      rfl

theorem Acts.keeps (h : app.Acts defaults action e) (k : Nat) :
    UserDefaultsManager.Keeps defaults (machine.writeAll defaults (e.writes.take k)) := by
  refine machine.writeAll_take_of_forall (UserDefaultsManager.Keeps defaults)
    (fun d w hw hd => ?_) k defaults (.refl defaults)
  exact hd.trans (UserDefaultsManager.keeps_write d (h.stores w hw))

theorem Acts.keeps_all (h : app.Acts defaults action e) :
    UserDefaultsManager.Keeps defaults (machine.writeAll defaults e.writes) := by
  have hkeeps := h.keeps e.writes.length
  rwa [List.take_length] at hkeeps

/-! ## Where a transaction task comes from -/

@[simp] theorem transaction?_boot (flow : Flow) :
    (boot defaults).transaction? flow = none := by
  cases flow <;> simp [transaction?, boot]

/-- The root screen has no transaction task, and a new sheet has none yet. -/
theorem transaction?_afterContent (event : ContentView.Event) (view : ContentView)
    (flow : Flow) : (app.afterContent event view).transaction? flow = app.transaction? flow := by
  unfold afterContent
  split
  · cases flow with
    | deposit index task => rfl
    | mint index task =>
        simp only [transaction?, List.getElem?_append]
        split
        · rfl
        · rename_i hnew
          rw [List.getElem?_eq_none (Nat.le_of_not_lt hnew)]
          rcases hfresh : index - app.passViews.length with _ | n <;> simp
  · cases flow <;> rfl

theorem transaction?_openDetail (item : ProtocolItem) (flow : Flow) :
    ({ app with detailViews :=
      app.detailViews ++ [{ protocolItem := item }] } : App).transaction? flow =
      app.transaction? flow := by
  cases flow with
  | mint index task => rfl
  | deposit index task =>
      simp only [transaction?, List.getElem?_append]
      split
      · rfl
      · rename_i hnew
        rw [List.getElem?_eq_none (Nat.le_of_not_lt hnew)]
        rcases hfresh : index - app.detailViews.length with _ | n <;> simp

/-- A task after a step of a sheet is a task of that sheet, or one that did not
move. -/
theorem transaction?_afterPass {index : Nat} {before after : PremiumPassView}
    {flow : Flow} {t : Transaction}
    (h : (app.afterPass index before after).transaction? flow = some t) :
    (∃ task, flow = .mint index task ∧ after.mints[task]? = some t) ∨
      app.transaction? flow = some t := by
  cases flow with
  | deposit view task => exact .inr h
  | mint view task =>
      obtain ⟨v, hv, ht⟩ := Option.bind_eq_some_iff.mp h
      rcases getElem?_set_cases hv with ⟨rfl, rfl⟩ | ⟨_, hv⟩
      · exact .inl ⟨task, rfl, ht⟩
      · exact .inr (Option.bind_eq_some_iff.mpr ⟨v, hv, ht⟩)

theorem transaction?_afterDetail {index : Nat} {after : ProtocolDetailView}
    {flow : Flow} {t : Transaction}
    (h : (app.afterDetail index after).transaction? flow = some t) :
    (∃ task, flow = .deposit index task ∧ after.deposits[task]? = some t) ∨
      app.transaction? flow = some t := by
  cases flow with
  | mint view task => exact .inr h
  | deposit view task =>
      obtain ⟨v, hv, ht⟩ := Option.bind_eq_some_iff.mp h
      rcases getElem?_set_cases hv with ⟨rfl, rfl⟩ | ⟨_, hv⟩
      · exact .inl ⟨task, rfl, ht⟩
      · exact .inr (Option.bind_eq_some_iff.mpr ⟨v, hv, ht⟩)

/-- Where a transaction task of the next memory comes from. -/
theorem Acts.transaction_cases (h : app.Acts defaults action e)
    (hnext : e.next = .ok app') {flow : Flow} {t' : Transaction}
    (ht' : app'.transaction? flow = some t') :
    app.transaction? flow = some t' ∨ t' = {} ∨
      ∃ t code event inner, action = flow.action event ∧ app.transaction? flow = some t ∧
        flow.Runs code ∧ t.Step code defaults event inner ∧ e.writes = inner.writes ∧
        inner.next = .ok t' := by
  cases h with
  | content h =>
      obtain ⟨view', -, happ⟩ := Effect.map_next_ok hnext
      subst happ
      rw [transaction?_afterContent] at ht'
      exact .inl ht'
  | openDetail _ =>
      have happ := Except.ok.inj hnext
      subst happ
      rw [transaction?_openDetail] at ht'
      exact .inl ht'
  | @pass index view event effect hview h =>
      obtain ⟨view', hview', happ⟩ := Effect.map_next_ok hnext
      subst happ
      rcases transaction?_afterPass ht' with ⟨task, hflow, htask'⟩ | hold
      · subst hflow
        have hbefore : app.transaction? (.mint index task) = view.mints[task]? := by
          rw [transaction?, hview, Option.bind_some]
        rw [hbefore]
        rcases h.mint_cases hview' htask' with hold | hfresh |
          ⟨t, inner, effect', hevent, htask, hstep, hwrites, heffect⟩
        · exact .inl hold
        · exact .inr (.inl hfresh)
        · subst hevent
          exact .inr (.inr ⟨t, _, inner, effect', rfl, htask, .mint view, hstep, hwrites,
            heffect⟩)
      · exact .inl hold
  | @detail index view event effect hview h =>
      obtain ⟨view', hview', happ⟩ := Effect.map_next_ok hnext
      subst happ
      rcases transaction?_afterDetail ht' with ⟨task, hflow, htask'⟩ | hold
      · subst hflow
        have hbefore : app.transaction? (.deposit index task) = view.deposits[task]? := by
          rw [transaction?, hview, Option.bind_some]
        rw [hbefore]
        rcases h.deposit_cases hview' htask' with hold | hfresh |
          ⟨t, inner, effect', hevent, htask, hstep, hwrites, heffect⟩
        · exact .inl hold
        · exact .inr (.inl hfresh)
        · subst hevent
          exact .inr (.inr ⟨t, _, inner, effect', rfl, htask, .deposit view, hstep, hwrites,
            heffect⟩)
      · exact .inl hold

/-- A law of every transaction task of a process. -/
def AllTransactions (P : Flow → Transaction → Prop) (app : App) : Prop :=
  ∀ flow t, app.transaction? flow = some t → P flow t

/-- The rule for laws of every transaction task. -/
theorem Acts.transactions {P P' : Flow → Transaction → Prop}
    (h : app.Acts defaults action e) (hnext : e.next = .ok app')
    (hframe : ∀ flow t, P flow t → P' flow t) (hfresh : ∀ flow, P' flow {})
    (hstep : ∀ flow t code event inner t', action = flow.action event →
      app.transaction? flow = some t → flow.Runs code → P flow t →
      t.Step code defaults event inner → e.writes = inner.writes →
      inner.next = .ok t' → P' flow t')
    (hP : app.AllTransactions P) : app'.AllTransactions P' := by
  intro flow t' ht'
  rcases h.transaction_cases hnext ht' with hold | rfl |
    ⟨t, code, event, inner, haction, ht, hcode, hmove, hwrites, ht''⟩
  · exact hframe flow t' (hP flow t' hold)
  · exact hfresh flow
  · exact hstep flow t code event inner t' haction ht hcode (hP flow t ht) hmove hwrites ht''

end App

/-! ## Sign-in tasks -/

/-- The event of a sign-in that an action is, if it is one. -/
def SignIn.event? (task : Nat) : Action → Option SignIn.Event
  | .content (.signIn task' event) => if task = task' then some event else none
  | _ => none

theorem SignIn.event?_eq_some {task : Nat} {action : Action} {event : SignIn.Event} :
    SignIn.event? task action = some event ↔ action = .content (.signIn task event) := by
  constructor
  · intro h
    unfold event? at h
    split at h
    · obtain ⟨rfl, rfl⟩ := Option.ite_some_none_eq_some.mp h
      rfl
    · cases h
  · rintro rfl
    simp [event?]

namespace ContentView

/-- A step of a sign-in replaces the entry of its task and no other. -/
theorem SignInStep.signIns_set {defaults : UserDefaultsManager} {view view' : ContentView}
    {task : Nat} {flow : SignIn} {event : SignIn.Event} {e : AppEffect ContentView}
    (h : view.SignInStep defaults task flow event e)
    (htask : view.signIns[task]? = some flow) (hnext : e.next = .ok view') :
    ∃ flow', view'.signIns = view.signIns.set task flow' := by
  cases h with
  | noSession _ => cases hnext
  | noAccount _ => cases hnext
  | noWallet _ =>
      have hinj := Except.ok.inj hnext
      subst hinj
      obtain ⟨hlt, -⟩ := List.getElem?_eq_some_iff.mp htask
      exact ⟨view.signIns[task], (List.set_getElem_self hlt).symm⟩
  | _ =>
      have hinj := Except.ok.inj hnext
      subst hinj
      exact ⟨_, rfl⟩

end ContentView

namespace App

variable {defaults : UserDefaultsManager} {app app' : App} {action : Action}
  {e : AppEffect App}

@[simp] theorem signIns_afterPass (index : Nat) (before after : PremiumPassView) :
    (app.afterPass index before after).contentView.signIns = app.contentView.signIns := by
  unfold afterPass
  split <;> rfl

/-- Where a sign-in task of the next memory comes from. -/
theorem Acts.signIn_cases (h : app.Acts defaults action e) (hnext : e.next = .ok app')
    {task : Nat} {flow' : SignIn} (htask' : app'.contentView.signIns[task]? = some flow') :
    app.contentView.signIns[task]? = some flow' ∨ flow' = .started ∨
      ∃ flow event inner view', action = .content (.signIn task event) ∧
        app.contentView.signIns[task]? = some flow ∧
        app.contentView.SignInStep defaults task flow event inner ∧
        e.writes = inner.writes ∧ inner.next = .ok view' ∧
        view'.signIns = app.contentView.signIns.set task flow' := by
  cases h with
  | openDetail _ =>
      have hinj := Except.ok.inj hnext
      subst hinj
      exact .inl htask'
  | detail _ _ =>
      obtain ⟨view', -, rfl⟩ := Effect.map_next_ok hnext
      exact .inl htask'
  | pass _ _ =>
      obtain ⟨view', -, rfl⟩ := Effect.map_next_ok hnext
      rw [signIns_afterPass] at htask'
      exact .inl htask'
  | content h =>
      obtain ⟨view', hview', rfl⟩ := Effect.map_next_ok hnext
      rw [contentView_afterContent] at htask'
      cases h with
      | tapSignIn _ =>
          have hinj := Except.ok.inj hview'
          subst hinj
          rcases getElem?_concat_cases htask' with ⟨-, rfl⟩ | hold
          · exact .inr (.inl rfl)
          · exact .inl hold
      | @signIn moved flow event _ htask hstep =>
          obtain ⟨flow'', hset⟩ := hstep.signIns_set htask hview'
          rw [hset] at htask'
          rcases getElem?_set_cases htask' with ⟨rfl, rfl⟩ | ⟨_, hold⟩
          · exact .inr (.inr ⟨flow, event, _, view', rfl, htask, hstep, rfl, hview', hset⟩)
          · exact .inl hold
      | other _ _ _ hsame =>
          rw [(hsame view' hview').1] at htask'
          exact .inl htask'

/-- A sign-in task stays where it is while others take steps. -/
theorem Acts.signIn_kept (h : app.Acts defaults action e) (hnext : e.next = .ok app')
    {task : Nat} {flow : SignIn} (htask : app.contentView.signIns[task]? = some flow)
    (hother : ∀ event, action ≠ .content (.signIn task event)) :
    app'.contentView.signIns[task]? = some flow := by
  cases h with
  | openDetail _ =>
      have hinj := Except.ok.inj hnext
      subst hinj
      exact htask
  | detail _ _ =>
      obtain ⟨view', -, rfl⟩ := Effect.map_next_ok hnext
      exact htask
  | pass _ _ =>
      obtain ⟨view', -, rfl⟩ := Effect.map_next_ok hnext
      rwa [signIns_afterPass]
  | content h =>
      obtain ⟨view', hview', rfl⟩ := Effect.map_next_ok hnext
      rw [contentView_afterContent]
      cases h with
      | tapSignIn _ =>
          have hinj := Except.ok.inj hview'
          subst hinj
          have hlt := (List.getElem?_eq_some_iff.mp htask).1
          rw [ContentView.initiateSignIn, List.getElem?_append_left hlt]
          exact htask
      | @signIn moved _ event _ hmoved hstep =>
          obtain ⟨flow', hset⟩ := hstep.signIns_set hmoved hview'
          rw [hset, List.getElem?_set_ne]
          · exact htask
          · rintro rfl
            exact hother event rfl
      | other _ _ _ hsame => rwa [(hsame view' hview').1]

/-- A law of every sign-in task of a process. -/
def AllSignIns (Q : SignIn → Prop) (app : App) : Prop :=
  ∀ (task : Nat) (flow : SignIn), app.contentView.signIns[task]? = some flow → Q flow

/-- The rule for laws of every sign-in task. -/
theorem Acts.signIns {Q Q' : SignIn → Prop} (h : app.Acts defaults action e)
    (hnext : e.next = .ok app') (hframe : ∀ flow, Q flow → Q' flow) (hfresh : Q' .started)
    (hstep : ∀ task flow event inner view' flow', action = .content (.signIn task event) →
      app.contentView.signIns[task]? = some flow → Q flow →
      app.contentView.SignInStep defaults task flow event inner →
      e.writes = inner.writes → inner.next = .ok view' →
      view'.signIns[task]? = some flow' → Q' flow')
    (hQ : app.AllSignIns Q) : app'.AllSignIns Q' := by
  intro task flow' htask'
  rcases h.signIn_cases hnext htask' with hold | rfl |
    ⟨flow, event, inner, view', haction, htask, hmove, hwrites, hview', hset⟩
  · exact hframe flow' (hQ task flow' hold)
  · exact hfresh
  · have hflow' : view'.signIns[task]? = some flow' := by
      rw [hset]
      exact getElem?_set_of_some htask flow'
    exact hstep task flow event inner view' flow' haction htask (hQ task flow htask) hmove
      hwrites hview' hflow'

end App

/-! ## The end of a transaction task -/

/-- The state of a transaction task, if a process runs and has it. -/
def Installed.transaction? (s : Installed) (flow : Flow) : Option Transaction :=
  s.memory.bind (·.transaction? flow)

/-- The busy flag of the view of a transaction task. -/
def Installed.busy? (s : Installed) (flow : Flow) : Option Bool :=
  s.memory.bind (·.busy? flow)

/-- Whether a transaction task is in progress, if a process runs and has it. -/
def Installed.live? (s : Installed) (flow : Flow) : Option Bool :=
  (s.transaction? flow).map Transaction.inProgress

/-- The task is in progress before the transition and over after it. -/
def Ends (flow : Flow) (e : Transit) : Prop :=
  Installed.live? e.before flow = some true ∧ Installed.live? e.after flow = some false

/-- A task ends with a step of its own. -/
theorem Ends.cases {flow : Flow} {e : Transit} (hends : Ends flow e)
    (h : machine.Step e.before e.label e.after) :
    ∃ app app' t t' code event effect inner,
      e.before.memory = some app ∧ e.after.memory = some app' ∧
      app.transaction? flow = some t ∧ app'.transaction? flow = some t' ∧
      e.label = .act (flow.action event) ∧
      app.Acts e.before.stored (flow.action event) effect ∧ effect.next = .ok app' ∧
      flow.Runs code ∧ t.Step code e.before.stored event inner ∧ inner.next = .ok t' ∧
      t'.inProgress = false := by
  obtain ⟨before, label, after⟩ := e
  obtain ⟨hbefore, hafter⟩ := hends
  obtain ⟨t, hbefore, hlive⟩ := Option.map_eq_some_iff.mp hbefore
  obtain ⟨t', hafter, hover⟩ := Option.map_eq_some_iff.mp hafter
  obtain ⟨app, hmemory, ht⟩ := Option.bind_eq_some_iff.mp hbefore
  obtain ⟨app', hmemory', ht'⟩ := Option.bind_eq_some_iff.mp hafter
  cases label with
  | terminate =>
      cases h
      cases hmemory'
  | launch =>
      cases h
      cases hmemory
  | kill action k => cases h
  | act action =>
      obtain ⟨effect, heffect, -, hafter⟩ := h.act_of_memory hmemory
      have hacts := acts_of_step heffect
      have hnext := (hafter app').mp hmemory'
      rcases hacts.transaction_cases hnext ht' with hsame | rfl |
        ⟨t₀, code, event, inner, rfl, ht₀, hcode, hstep, -, hinner⟩
      · obtain rfl : t = t' := Option.some.inj (ht.symm.trans hsame)
        rw [hlive] at hover
        cases hover
      · cases hover
      · obtain rfl : t = t₀ := Option.some.inj (ht.symm.trans ht₀)
        exact ⟨app, app', t, t', code, event, effect, inner, hmemory, hmemory', ht, ht',
          rfl, hacts, hnext, hcode, hstep, hinner, hover⟩

/-! ## Schedules -/

/-- The events of a sign-in up to the polling for its wallet. -/
def SignIn.untilQuery (session : SessionTokenResponse) : List SignIn.Event :=
  [.start "uuid", .registered (.response 201 (some ())),
    .sessionToken (.response 200 (some session)) "idempotency key",
    .account (.response 201 (some ⟨"challenge"⟩)), .mainActor, .completion .success,
    .queryStart]

/-- A response with one wallet. -/
def SignIn.walletResponse (wallet : Wallet) : SignIn.Event :=
  .walletStatus (.response 200 (some ⟨[wallet]⟩))

/-- The events of a transaction up to its completion. -/
def Transaction.untilCompletion : List Transaction.Event :=
  [.start "idempotency key", .response (.response 201 (some ⟨"challenge"⟩)), .execute]

/-- A schedule for one sign-in task. -/
def signInSchedule (task : Nat) (events : List SignIn.Event) : List (Label Action) :=
  events.map fun event => .act (.content (.signIn task event))

/-- A schedule for one transaction task. -/
def Flow.schedule (flow : Flow) (events : List Transaction.Event) : List (Label Action) :=
  events.map fun event => .act (flow.action event)

/-- A first launch and a sign-in that finds its wallet. -/
def signedInSchedule : List (Label Action) :=
  [.launch, .act (.content .tapSignIn)] ++
  signInSchedule 0 (SignIn.untilQuery ⟨"token", "key"⟩) ++
  signInSchedule 0 [SignIn.walletResponse ⟨"id", "address"⟩]

/-- The page of a protocol is opened and a deposit is tapped. -/
def tapDepositSchedule : List (Label Action) :=
  let item : ProtocolItem :=
    ⟨1, "Pool", 5, "url", "description", "tvl", "date", "network", "whitepaper"⟩
  [.act (.content .onAppear), .act (.content (.fetchedProtocols (some [some item]))),
    .act (.openDetail item), .act (.detail 0 (.editDepositAmount "1")),
    .act (.detail 0 .tapDeposit)]

/-- The purchase sheet is opened, step 1 is completed and a purchase is tapped. -/
def tapPurchaseSchedule : List (Label Action) :=
  [.act (.content .tapBuyCommunityPass), .act (.pass 0 .tapWorldCoin),
    .act (.pass 0 (.worldCoin 0 (.start (some "url") true))),
    .act (.pass 0 (.worldCoin 0 (.poll (some (.confirmed ⟨"0x1", "0x2", "0x3", "orb"⟩))))),
    .act (.pass 0 .tapPurchase)]

/-- What a schedule ends in is the end of a run. -/
theorem exists_run_of_schedule {β : Type} (f : Installed → β)
    {schedule : List (Label Action)} {b : β}
    (h : (replay machine.perform freshInstall schedule).map f = some b) :
    ∃ history s, Run machine.Step freshInstall history s ∧
      history.map Edge.label = schedule ∧ f s = b :=
  exists_run_of_replay_map (fun _ _ _ => Machine.step_of_perform) f h

theorem exists_crash_run_of_schedule {β : Type} (f : Installed → β)
    {schedule : List (Label Action)} {b : β}
    (h : (replay machine.performCrash freshInstall schedule).map f = some b) :
    ∃ history s, Run machine.CrashStep freshInstall history s ∧
      history.map Edge.label = schedule ∧ f s = b :=
  exists_run_of_replay_map (fun _ _ _ => Machine.crashStep_of_performCrash) f h

/-- The last label of a schedule, as a transition after a run. -/
theorem exists_step_of_schedule {β : Type} (f : Installed → Installed → β)
    {schedule : List (Label Action)} {last : Label Action} {b : β}
    (h : ((replay machine.perform freshInstall schedule).bind fun s =>
      (machine.perform s last).map (f s)) = some b) :
    ∃ (history : List Transit) (s s' : Installed),
      Run machine.Step freshInstall history s ∧ history.map Edge.label = schedule ∧
        machine.Step s last s' ∧ f s s' = b := by
  obtain ⟨s, hs, hlast⟩ := Option.bind_eq_some_iff.mp h
  obtain ⟨s', hs', hb⟩ := Option.map_eq_some_iff.mp hlast
  obtain ⟨history, run, hlabels⟩ :=
    exists_run_of_replay (fun _ _ _ => Machine.step_of_perform) schedule hs
  exact ⟨history, s, s', run, hlabels, Machine.step_of_perform hs', hb⟩

/-- A schedule whose last label ends a transaction task. -/
theorem exists_end_of_schedule {β : Type} (flow : Flow) (f : Installed → β)
    {schedule : List (Label Action)} {last : Label Action} {b : β}
    (h : ((replay machine.perform freshInstall schedule).bind fun s =>
      (machine.perform s last).map fun s' =>
        (Installed.live? s flow, Installed.live? s' flow, f s')) =
          some (some true, some false, b)) :
    ∃ (history : List Transit) (s : Installed) (e : Transit),
      Run machine.Step freshInstall history s ∧ e ∈ history ∧ e.label = last ∧
        Ends flow e ∧ f e.after = b := by
  obtain ⟨history, s, s', run, -, hstep, hend⟩ := exists_step_of_schedule _ h
  obtain ⟨hlive, hafter⟩ := Prod.mk.inj hend
  obtain ⟨hover, hb⟩ := Prod.mk.inj hafter
  exact ⟨_, s', ⟨s, last, s'⟩, run.snoc hstep,
    List.mem_append_right _ (List.mem_singleton_self _), rfl, ⟨hlive, hover⟩, hb⟩

end YieldMe

/-
  Calls.lean --- what a step of the app asks of the outside.

  A step makes at most one call, and `App.Calls` lists the calls there are: the
  four requests and the SDK execution of a sign-in, the request of a balance
  refresh, the request and the SDK execution of a transaction, the two document
  queries and the opening of a URL.

  A process that is killed after the last settings write of a step may have made
  the call of that step, since every step of the source writes before it calls.
-/
import YieldMe.Flows

set_option autoImplicit false

namespace YieldMe

open CircleNetworking ContentView Durable Transition

/-- The calls of a step of a process, with the task that makes them. -/
inductive App.Calls (defaults : UserDefaultsManager) (app : App) (action : Action) :
    OutsideCall → Prop
  | registerUser {task : Nat} {newUuid : String}
      (haction : action = .content (.signIn task (.start newUuid)))
      (htask : app.contentView.signIns[task]? = some .started) :
      Calls defaults app action
        (.request (registerUser.request (defaults.uuid.getD newUuid)))
  | getSessionToken {task : Nat} {userId : String} {outcome : HTTPOutcome Unit}
      (haction : action = .content (.signIn task (.registered outcome)))
      (htask : app.contentView.signIns[task]? = some (.registering userId)) :
      Calls defaults app action (.request (getSessionToken.request userId))
  | initializeAccount {task : Nat} {userId key : String}
      {outcome : HTTPOutcome SessionTokenResponse} {session : SessionTokenResponse}
      (haction : action = .content (.signIn task (.sessionToken outcome key)))
      (htask : app.contentView.signIns[task]? = some (.gettingSession userId))
      (hresult : getSessionToken.result outcome = some session) :
      Calls defaults app action
        (.request (initializeAccount.request key session.userToken ["MATIC-MUMBAI"]))
  | signIn {task : Nat} {challenge : CircleChallenge}
      (haction : action = .content (.signIn task .mainActor))
      (htask : app.contentView.signIns[task]? = some (.signingIn challenge)) :
      Calls defaults app action (.execute challenge.userToken challenge.encryptionKey
        [challenge.challengeId])
  | getWalletStatus {task : Nat} {flow : SignIn} {event : SignIn.Event}
      {challenge : CircleChallenge}
      (haction : action = .content (.signIn task event))
      (htask : app.contentView.signIns[task]? = some flow)
      (hflow : flow = .queryStarted challenge ∨ flow = .querying challenge) :
      Calls defaults app action (.request (getWalletStatus.request challenge.userToken))
  | getWalletBalance {task : Nat} {walletID userToken : String}
      (haction : action = .content (.refresh task .start))
      (hid : defaults.walletID = some walletID)
      (htoken : defaults.userToken = some userToken) :
      Calls defaults app action (.request (getWalletBalance.request userToken walletID))
  | transaction {flow : Flow} {t : Transaction} {code : TransactionCode} {key : String}
      {model : ContractExecutionChallengeRequest}
      (haction : action = flow.action (.start key)) (htask : app.transaction? flow = some t)
      (hcode : flow.Runs code) (hmodel : code.requestModel defaults key = .ok model) :
      Calls defaults app action
        (.request (createContractExecutionChallenge.request defaults.userToken model))
  | execute {flow : Flow} {t : Transaction} {challenge : CircleChallenge}
      (haction : action = flow.action .execute) (htask : app.transaction? flow = some t)
      (hstage : t.stage = .ready challenge) :
      Calls defaults app action (.execute challenge.userToken challenge.encryptionKey
        [challenge.challengeId])
  | openURL {url : String} : Calls defaults app action (.openURL url)
  | getDocuments {collection : String} {projectId : Option Int64} :
      Calls defaults app action (.getDocuments collection projectId)

section Steps

variable {defaults : UserDefaultsManager} {app : App} {call : OutsideCall}

theorem Transaction.Step.calls {flow : Flow} {code : TransactionCode} {t : Transaction}
    {event : Transaction.Event} {e : AppEffect Transaction}
    (h : t.Step code defaults event e) (hcode : flow.Runs code)
    (htask : app.transaction? flow = some t) (hcall : call ∈ e.calls) :
    app.Calls defaults (flow.action event) call := by
  cases h with
  | requested _ hmodel =>
      obtain rfl := List.mem_singleton.mp hcall
      exact .transaction rfl htask hcode hmodel
  | executed hstage =>
      obtain rfl := List.mem_singleton.mp hcall
      exact .execute rfl htask hstage
  | trapped _ _ | returned _ _ | passed _ _ | completed _ => cases hcall

theorem ContentView.SignInStep.calls {task : Nat} {flow : SignIn} {event : SignIn.Event}
    {e : AppEffect ContentView}
    (h : app.contentView.SignInStep defaults task flow event e)
    (htask : app.contentView.signIns[task]? = some flow) (hcall : call ∈ e.calls) :
    app.Calls defaults (.content (.signIn task event)) call := by
  cases h with
  | started =>
      obtain rfl := List.mem_singleton.mp hcall
      exact .registerUser rfl htask
  | registered =>
      obtain rfl := List.mem_singleton.mp hcall
      exact .getSessionToken rfl htask
  | gotSession hresult =>
      obtain rfl := List.mem_singleton.mp hcall
      exact .initializeAccount rfl htask hresult
  | executed =>
      obtain rfl := List.mem_singleton.mp hcall
      exact .signIn rfl htask
  | queried =>
      obtain rfl := List.mem_singleton.mp hcall
      exact .getWalletStatus rfl htask (.inl rfl)
  | noWallet _ =>
      obtain rfl := List.mem_singleton.mp hcall
      exact .getWalletStatus rfl htask (.inr rfl)
  | noSession _ | noAccount _ | gotAccount _ | succeeded | failed | gotWallet _
  | refreshed _ => cases hcall

/-- The calls of a step. -/
theorem App.Step.calls {action : Action} {e : AppEffect App}
    (h : app.Step defaults action e) (hcall : call ∈ e.calls) :
    app.Calls defaults action call := by
  cases h with
  | openDetail _ => cases hcall
  | content h =>
      cases h with
      | signIn htask hstep => exact (signInStep_sound hstep).calls htask hcall
      | refresh _ hstep =>
          cases hstep with
          | requested hid htoken =>
              obtain rfl := List.mem_singleton.mp hcall
              exact .getWalletBalance rfl hid htoken
          | noWallet _ | noAnswer _ | answered _ => cases hcall
      | appeared =>
          obtain rfl := List.mem_singleton.mp hcall
          exact .getDocuments
      | fetchFailed _ | fetched _ | signInTapped _ | pulledToRefresh | buyTapped _ _ _ _
      | changeDelivered _ => cases hcall
  | @pass index view event inner hview h =>
      cases h with
      | @mint task t event effect htask hstep =>
          refine Transaction.Step.calls hstep (@Flow.Runs.mint index task view) ?_ hcall
          rw [App.transaction?, hview, Option.bind_some, htask]
      | connected _ =>
          obtain rfl := List.mem_singleton.mp hcall
          exact .openURL
      | closed _ | worldCoinTapped _ _ | noSession _ | noUrl _ | noStatus _ | confirmed _
      | unconfirmed _ _ | purchaseTapped _ _ => cases hcall
  | @detail index view event inner hview h =>
      cases h with
      | @deposit task t event effect htask hstep =>
          refine Transaction.Step.calls hstep (@Flow.Runs.deposit index task view) ?_ hcall
          rw [App.transaction?, hview, Option.bind_some, htask]
      | appeared _ =>
          obtain rfl := List.mem_singleton.mp hcall
          exact .getDocuments
      | fetchFailed _ | fetched _ | amountEdited _ _ | depositTapped _ _ _
      | commentEdited _ _ | commentPosted _ _ _ | disappeared _ => cases hcall

end Steps

/-- A transition makes a call: its step runs to its end, or its process is
killed after the last of its writes. -/
def Makes (e : Transit) (call : OutsideCall) : Prop :=
  ∃ app action effect, e.before.memory = some app ∧
    machine.step e.before.stored app action = some effect ∧ call ∈ effect.calls ∧
    (e.label = .act action ∨ e.label = .kill action effect.writes.length)

/-- What is stored after a call is what its step wrote. -/
theorem Makes.stored {e : Transit} {call : OutsideCall} (h : Makes e call)
    (hstep : machine.CrashStep e.before e.label e.after) :
    ∃ app action effect, e.before.memory = some app ∧
      app.Step e.before.stored action effect ∧ call ∈ effect.calls ∧
      e.after.stored = machine.writeAll e.before.stored effect.writes := by
  obtain ⟨app, action, effect, hmemory, heffect, hcall, hlabel⟩ := h
  refine ⟨app, action, effect, hmemory, App.step_of_some heffect, hcall, ?_⟩
  obtain ⟨before, label, after⟩ := e
  rcases hlabel with rfl | rfl
  · cases hstep with
    | whole h =>
        obtain ⟨effect', heffect', hstored, -⟩ := h.act_of_memory hmemory
        obtain rfl := Option.some.inj (heffect.symm.trans heffect')
        exact hstored
  · cases hstep with
    | whole h => cases h
    | @kill d m a e k h _ =>
        obtain rfl := Option.some.inj hmemory
        obtain rfl := Option.some.inj (heffect.symm.trans h)
        simp only [List.take_length]

end YieldMe

/-
  Traces.lean --- what one tap makes the app do.

  A tap spawns a task.  Whatever else goes on, the steps of that task follow its
  code: its events come in one order, and so do its calls.  `Flow.Trace` and
  `SignIn.Trace` list, for every state of a task, the events it has gone through
  and the calls it has made; a transaction reads the settings, so its events come
  with what was stored then.

  In particular a purchase or a deposit sends at most one request, with the
  idempotency key it was started with, and executes at most one challenge, the one
  created by the response to that request under the session stored when that came; a
  sign-in executes at most one, made of the session it was given and the account it
  created with that session.
-/
import YieldMe.Calls
import YieldMe.Foundation.TaskTrace

set_option autoImplicit false

namespace YieldMe

open CircleNetworking ContentView Durable Tasks Transition

/-! ## Transactions -/

/-- The event of a task that an action is, if it is one. -/
def Flow.event? : Flow → Action → Option Transaction.Event
  | .mint view task, .pass view' (.mint task' event) =>
      if view = view' ∧ task = task' then some event else none
  | .deposit view task, .detail view' (.deposit task' event) =>
      if view = view' ∧ task = task' then some event else none
  | _, _ => none

theorem Flow.event?_eq_some {flow : Flow} {action : Action} {event : Transaction.Event} :
    flow.event? action = some event ↔ action = flow.action event := by
  constructor
  · intro h
    unfold event? at h
    split at h
    · obtain ⟨⟨rfl, rfl⟩, rfl⟩ := Option.ite_some_none_eq_some.mp h
      rfl
    · obtain ⟨⟨rfl, rfl⟩, rfl⟩ := Option.ite_some_none_eq_some.mp h
      rfl
    · cases h
  · rintro rfl
    cases flow <;> simp [event?, action]

/-- The notices of a completion of the task. -/
def Flow.completionNotices : Flow → ExecuteResult → List Notice
  | .mint _ _ => PremiumPassView.completionNotices
  | .deposit _ _ => ProtocolDetailView.completionNotices

theorem Flow.Runs.notices_eq {flow : Flow} {code : TransactionCode} (h : flow.Runs code)
    (result : ExecuteResult) : code.notices result = flow.completionNotices result := by
  cases h <;> rfl

/-- The request of a task that was started with these settings and this idempotency
key. -/
def Flow.Opens (flow : Flow) (opened : UserDefaultsManager) (key : String)
    (request : URLRequest) : Prop :=
  ∃ code model, flow.Runs code ∧ code.requestModel opened key = .ok model ∧
    model.idempotencyKey = key ∧
    request = createContractExecutionChallenge.request opened.userToken model

/-- The challenge of a response: the id it brings, under the session stored then. -/
structure ChallengeOf (answered : UserDefaultsManager)
    (outcome : HTTPOutcome ContractExecutionChallengeResponse) (challenge : CircleChallenge) :
    Prop where
  userToken : answered.userToken = some challenge.userToken
  encryptionKey : answered.encryptionKey = some challenge.encryptionKey
  challengeId :
    createContractExecutionChallenge.result outcome = some ⟨challenge.challengeId⟩

/-- The events and the calls of a purchase or a deposit, up to its state. -/
inductive Flow.Trace (flow : Flow) :
    Transaction → List (Observed UserDefaultsManager Transaction.Event) → List OutsideCall → Prop
  | started : Trace flow {} [] []
  | requesting {opened : UserDefaultsManager} {key : String} {request : URLRequest}
      (hopens : flow.Opens opened key request) :
      Trace flow { stage := .requesting, sent := some request } [⟨opened, .start key⟩]
        [.request request]
  | returned {opened answered : UserDefaultsManager} {key : String} {request : URLRequest}
      (hopens : flow.Opens opened key request)
      {outcome : HTTPOutcome ContractExecutionChallengeResponse}
      (hnone : ∀ challenge, ¬ ChallengeOf answered outcome challenge) :
      Trace flow { stage := .returned, sent := some request }
        [⟨opened, .start key⟩, ⟨answered, .response outcome⟩] [.request request]
  | ready {opened answered : UserDefaultsManager} {key : String} {request : URLRequest}
      (hopens : flow.Opens opened key request)
      {outcome : HTTPOutcome ContractExecutionChallengeResponse} {challenge : CircleChallenge}
      (hchallenge : ChallengeOf answered outcome challenge) :
      Trace flow { stage := .ready challenge, sent := some request }
        [⟨opened, .start key⟩, ⟨answered, .response outcome⟩] [.request request]
  | executing {opened answered executed : UserDefaultsManager} {key : String}
      {request : URLRequest} (hopens : flow.Opens opened key request)
      {outcome : HTTPOutcome ContractExecutionChallengeResponse} {challenge : CircleChallenge}
      (hchallenge : ChallengeOf answered outcome challenge) :
      Trace flow { stage := .executing challenge, sent := some request }
        [⟨opened, .start key⟩, ⟨answered, .response outcome⟩, ⟨executed, .execute⟩]
        [.request request, .execute challenge.userToken challenge.encryptionKey
          [challenge.challengeId]]
  | completed {opened answered executed ended : UserDefaultsManager} {key : String}
      {request : URLRequest} (hopens : flow.Opens opened key request)
      {outcome : HTTPOutcome ContractExecutionChallengeResponse} {challenge : CircleChallenge}
      (hchallenge : ChallengeOf answered outcome challenge) {result : ExecuteResult} :
      Trace flow
        { stage := .completed result, sent := some request,
          notices := flow.completionNotices result }
        [⟨opened, .start key⟩, ⟨answered, .response outcome⟩, ⟨executed, .execute⟩,
          ⟨ended, .completion result⟩]
        [.request request, .execute challenge.userToken challenge.encryptionKey
          [challenge.challengeId]]

/-- A request model carries the idempotency key it is built with. -/
theorem Flow.Runs.opens {flow : Flow} {code : TransactionCode} (h : flow.Runs code)
    {defaults : UserDefaultsManager} {key : String}
    {model : ContractExecutionChallengeRequest}
    (hmodel : code.requestModel defaults key = .ok model) :
    flow.Opens defaults key
      (createContractExecutionChallenge.request defaults.userToken model) := by
  refine ⟨code, model, h, hmodel, ?_, rfl⟩
  cases h with
  | mint view =>
      obtain ⟨_, _, hmodel⟩ := bind_eq_ok.mp hmodel
      obtain ⟨_, _, hmodel⟩ := bind_eq_ok.mp hmodel
      obtain ⟨_, _, hmodel⟩ := bind_eq_ok.mp hmodel
      obtain ⟨_, _, hmodel⟩ := bind_eq_ok.mp hmodel
      obtain ⟨_, _, hmodel⟩ := bind_eq_ok.mp hmodel
      obtain rfl := Except.ok.inj hmodel
      rfl
  | deposit view =>
      obtain ⟨_, _, hmodel⟩ := bind_eq_ok.mp hmodel
      obtain ⟨_, _, hmodel⟩ := bind_eq_ok.mp hmodel
      obtain rfl := Except.ok.inj hmodel
      rfl

/-- A step of a task continues its trace. -/
theorem Transaction.Step.trace {flow : Flow} {code : TransactionCode}
    {defaults : UserDefaultsManager} {t t' : Transaction} {event : Transaction.Event}
    {e : AppEffect Transaction} (h : t.Step code defaults event e) (hcode : flow.Runs code)
    (hnext : e.next = .ok t')
    {events : List (Observed UserDefaultsManager Transaction.Event)} {calls : List OutsideCall}
    (htrace : flow.Trace t events calls) :
    flow.Trace t' (events ++ [⟨defaults, event⟩]) (calls ++ e.calls) := by
  cases h with
  | trapped _ _ => cases hnext
  | requested hstage hmodel =>
      obtain rfl := Except.ok.inj hnext
      cases htrace with
      | started => exact .requesting (hcode.opens hmodel)
      | requesting _ | returned _ _ | ready _ _ | executing _ _ | completed _ _ => cases hstage
  | returned hstage hguards =>
      obtain rfl := Except.ok.inj hnext
      cases htrace with
      | requesting hopens =>
          refine .returned hopens fun challenge hchallenge => ?_
          have hsome := challengeAfterResponse_eq_some.mpr
            ⟨hchallenge.userToken, hchallenge.encryptionKey, hchallenge.challengeId⟩
          rw [hguards] at hsome
          cases hsome
      | started | returned _ _ | ready _ _ | executing _ _ | completed _ _ => cases hstage
  | passed hstage hguards =>
      obtain rfl := Except.ok.inj hnext
      obtain ⟨htoken, hkey, hid⟩ := challengeAfterResponse_eq_some.mp hguards
      cases htrace with
      | requesting hopens => exact .ready hopens ⟨htoken, hkey, hid⟩
      | started | returned _ _ | ready _ _ | executing _ _ | completed _ _ => cases hstage
  | executed hstage =>
      obtain rfl := Except.ok.inj hnext
      cases htrace with
      | ready hopens hchallenge =>
          obtain rfl := Transaction.Stage.ready.inj hstage
          exact .executing hopens hchallenge
      | started | requesting _ | returned _ _ | executing _ _ | completed _ _ => cases hstage
  | completed hstage =>
      obtain rfl := Except.ok.inj hnext
      cases htrace with
      | executing hopens hchallenge =>
          obtain rfl := Transaction.Stage.executing.inj hstage
          rw [hcode.notices_eq]
          exact .completed hopens hchallenge
      | started | requesting _ | returned _ _ | ready _ _ | completed _ _ => cases hstage

section Tasks

variable {defaults : UserDefaultsManager} {app app' : App} {action : Action}
  {e : AppEffect App} {flow : Flow}

/-- A step of something else leaves a task alone, or spawns it. -/
theorem App.Acts.transaction_frame (h : app.Acts defaults action e)
    (hnext : e.next = .ok app') (hother : flow.event? action = none) :
    app'.transaction? flow = app.transaction? flow ∨
      (app.transaction? flow = none ∧ app'.transaction? flow = some {}) := by
  cases h with
  | content h =>
      obtain ⟨view', -, rfl⟩ := Effect.map_next_ok hnext
      exact .inl (transaction?_afterContent _ _ _)
  | openDetail _ =>
      obtain rfl := Except.ok.inj hnext
      exact .inl (transaction?_openDetail _ _)
  | @pass index view event inner hview h =>
      obtain ⟨view', hview', rfl⟩ := Effect.map_next_ok hnext
      cases flow with
      | deposit _ _ => exact .inl rfl
      | mint index' task =>
          simp only [App.transaction?, App.afterPass]
          by_cases hindex : index = index'
          · subst hindex
            rw [getElem?_set_of_some hview, hview, Option.bind_some, Option.bind_some]
            cases h with
            | tapPurchase _ _ =>
                obtain rfl := Except.ok.inj hview'
                exact getElem?_concat_or view.mints {} task
            | @mint moved t event effect htask hstep =>
                obtain ⟨t', -, rfl⟩ := Effect.map_next_ok hview'
                have hmoved : moved ≠ task := by
                  rintro rfl
                  simp [Flow.event?] at hother
                rw [PremiumPassView.mints_afterMint, List.getElem?_set_ne hmoved]
                exact .inl rfl
            | other _ _ _ hsame =>
                rw [(hsame view' hview').1]
                exact .inl rfl
          · rw [List.getElem?_set_ne hindex]
            exact .inl rfl
  | @detail index view event inner hview h =>
      obtain ⟨view', hview', rfl⟩ := Effect.map_next_ok hnext
      cases flow with
      | mint _ _ => exact .inl rfl
      | deposit index' task =>
          simp only [App.transaction?, App.afterDetail]
          by_cases hindex : index = index'
          · subst hindex
            rw [getElem?_set_of_some hview, hview, Option.bind_some, Option.bind_some]
            cases h with
            | tapDeposit _ =>
                obtain rfl := Except.ok.inj hview'
                exact getElem?_concat_or view.deposits {} task
            | @deposit moved t event effect htask hstep =>
                obtain ⟨t', -, rfl⟩ := Effect.map_next_ok hview'
                have hmoved : moved ≠ task := by
                  rintro rfl
                  simp [Flow.event?] at hother
                rw [ProtocolDetailView.deposits_afterDeposit, List.getElem?_set_ne hmoved]
                exact .inl rfl
            | other _ _ _ hsame =>
                rw [(hsame view' hview').1]
                exact .inl rfl
          · rw [List.getElem?_set_ne hindex]
            exact .inl rfl

/-- An event of a task is a step of it. -/
theorem App.Acts.transaction_move {event : Transaction.Event}
    (h : app.Acts defaults (flow.action event) e) (hnext : e.next = .ok app') :
    ∃ t t' code inner, app.transaction? flow = some t ∧ app'.transaction? flow = some t' ∧
      flow.Runs code ∧ t.Step code defaults event inner ∧ e.calls = inner.calls ∧
      inner.next = .ok t' := by
  cases flow with
  | mint index task =>
      cases h with
      | @pass _ view _ inner hview h =>
          obtain ⟨view', hview', rfl⟩ := Effect.map_next_ok hnext
          cases h with
          | other _ htask _ _ => exact absurd rfl (htask task event)
          | @mint _ t _ effect htask hstep =>
              obtain ⟨t', ht', rfl⟩ := Effect.map_next_ok hview'
              refine ⟨t, t', _, effect, ?_, ?_, .mint view, hstep, rfl, ht'⟩
              · rw [App.transaction?, hview, Option.bind_some, htask]
              · rw [App.transaction?, App.afterPass, getElem?_set_of_some hview,
                  Option.bind_some, PremiumPassView.mints_afterMint,
                  getElem?_set_of_some htask]
  | deposit index task =>
      cases h with
      | @detail _ view _ inner hview h =>
          obtain ⟨view', hview', rfl⟩ := Effect.map_next_ok hnext
          cases h with
          | other _ htask _ _ => exact absurd rfl (htask task event)
          | @deposit _ t _ effect htask hstep =>
              obtain ⟨t', ht', rfl⟩ := Effect.map_next_ok hview'
              refine ⟨t, t', _, effect, ?_, ?_, .deposit view, hstep, rfl, ht'⟩
              · rw [App.transaction?, hview, Option.bind_some, htask]
              · rw [App.transaction?, App.afterDetail, getElem?_set_of_some hview,
                  Option.bind_some, ProtocolDetailView.deposits_afterDeposit,
                  getElem?_set_of_some htask]

end Tasks

/-- Every purchase and every deposit follows its trace: one request under its own
key, then at most one execution, of the challenge created by the response to that
request under the session stored when it came. -/
theorem transactions_traced {history : List Transit} {s : Installed}
    (run : Run machine.CrashStep freshInstall history s) {app : App}
    (hmemory : s.memory = some app) (flow : Flow) :
    Traced flow.Trace (app.transaction? flow)
      (observations flow.event? (currentProcess history))
      (machine.taskCalls flow.event? (currentProcess history)) := by
  refine Machine.observed_trace_rule rfl (fun app => app.transaction? flow) flow.event?
    flow.Trace .started (fun _ => App.transaction?_boot flow) ?_ ?_ run hmemory
  · intro defaults app action e app' he hnext hother
    exact (acts_of_step he).transaction_frame hnext hother
  · intro defaults app action e app' event he hnext hevent
    obtain rfl := Flow.event?_eq_some.mp hevent
    obtain ⟨t, t', code, inner, ht, ht', hcode, hstep, hcalls, hinner⟩ :=
      (acts_of_step he).transaction_move hnext
    refine ⟨t, t', ht, ht', fun events calls htrace => ?_⟩
    rw [hcalls]
    exact hstep.trace hcode hinner htrace

/-- Two purchases of one sheet, the second one completed. -/
theorem transactions_traced_of_purchases :
    ∃ history s app, Run machine.CrashStep freshInstall history s ∧ s.memory = some app ∧
      (app.transaction? (.mint 0 1)).map (·.stage) = some (.completed .success) ∧
      Traced (Flow.Trace (.mint 0 1)) (app.transaction? (.mint 0 1))
        (observations (Flow.event? (.mint 0 1)) (currentProcess history))
        (machine.taskCalls (Flow.event? (.mint 0 1)) (currentProcess history)) := by
  have hend : ((replay machine.performCrash freshInstall (signedInSchedule ++
      tapPurchaseSchedule ++ [.act (.pass 0 .tapPurchase)] ++
      (Flow.mint 0 0).schedule (Transaction.untilCompletion.take 2) ++
      (Flow.mint 0 1).schedule (Transaction.untilCompletion ++ [.completion .success]))).map
      fun s => s.memory.map fun app => (app.transaction? (.mint 0 1)).map (·.stage)) =
        some (some (some (.completed .success))) := by
    decide
  obtain ⟨history, s, run, -, hstage⟩ := exists_crash_run_of_schedule _ hend
  obtain ⟨app, hmemory, hstage⟩ := Option.map_eq_some_iff.mp hstage
  exact ⟨history, s, app, run, hmemory, hstage,
    transactions_traced run hmemory (.mint 0 1)⟩

/-! ## Sign-ins -/

/-- What a sign-in goes through before its challenge is there: the texts it is
given, the outcomes of its first three requests, and what it makes of them. -/
structure SignIn.Opening where
  newUuid : String
  userId : String
  registered : HTTPOutcome Unit
  sessionToken : HTTPOutcome SessionTokenResponse
  session : SessionTokenResponse
  hsession : getSessionToken.result sessionToken = some session
  idempotencyKey : String
  account : HTTPOutcome InitializeAccountResponse
  challengeId : String
  haccount : initializeAccount.result account = some ⟨challengeId⟩

namespace SignIn.Opening

variable (o : SignIn.Opening)

/-- The challenge `getSignInChallenge` returns: the session it was given, and the
id of the account it created with that session. -/
def challenge : CircleChallenge := ⟨o.session.userToken, o.session.encryptionKey, o.challengeId⟩

def events : List SignIn.Event :=
  [.start o.newUuid, .registered o.registered, .sessionToken o.sessionToken o.idempotencyKey,
    .account o.account]

def calls : List OutsideCall :=
  [.request (registerUser.request o.userId), .request (getSessionToken.request o.userId),
    .request (initializeAccount.request o.idempotencyKey o.session.userToken
      ["MATIC-MUMBAI"])]

/-- The one execution of a sign-in. -/
def execution : OutsideCall :=
  .execute o.challenge.userToken o.challenge.encryptionKey [o.challenge.challengeId]

/-- One round of the polling for the wallet. -/
def poll : OutsideCall := .request (getWalletStatus.request o.challenge.userToken)

end SignIn.Opening

/-- The events and the calls of a sign-in, up to its state. -/
inductive SignIn.Trace : SignIn → List SignIn.Event → List OutsideCall → Prop
  | started : Trace .started [] []
  | registering {newUuid userId : String} :
      Trace (.registering userId) [.start newUuid] [.request (registerUser.request userId)]
  | gettingSession {newUuid userId : String} {registered : HTTPOutcome Unit} :
      Trace (.gettingSession userId) [.start newUuid, .registered registered]
        [.request (registerUser.request userId), .request (getSessionToken.request userId)]
  | initializing {newUuid userId key : String} {registered : HTTPOutcome Unit}
      {sessionToken : HTTPOutcome SessionTokenResponse} {session : SessionTokenResponse}
      (hsession : getSessionToken.result sessionToken = some session) :
      Trace (.initializing session)
        [.start newUuid, .registered registered, .sessionToken sessionToken key]
        [.request (registerUser.request userId), .request (getSessionToken.request userId),
          .request (initializeAccount.request key session.userToken ["MATIC-MUMBAI"])]
  | signingIn (o : Opening) : Trace (.signingIn o.challenge) o.events o.calls
  | executing (o : Opening) :
      Trace (.executing o.challenge) (o.events ++ [.mainActor]) (o.calls ++ [o.execution])
  | failed (o : Opening) {displayString : String} :
      Trace .ended (o.events ++ [.mainActor, .completion (.failure displayString)])
        (o.calls ++ [o.execution])
  | queryStarted (o : Opening) :
      Trace (.queryStarted o.challenge) (o.events ++ [.mainActor, .completion .success])
        (o.calls ++ [o.execution])
  | querying (o : Opening) {answers : List (HTTPOutcome WalletStatusResponse)}
      (hnone : ∀ answer ∈ answers, firstWallet (getWalletStatus.result answer) = none) :
      Trace (.querying o.challenge)
        (o.events ++ [.mainActor, .completion .success, .queryStart] ++
          answers.map .walletStatus)
        (o.calls ++ [o.execution] ++ List.replicate (answers.length + 1) o.poll)
  | refreshing (o : Opening) {answers : List (HTTPOutcome WalletStatusResponse)}
      (hnone : ∀ answer ∈ answers, firstWallet (getWalletStatus.result answer) = none)
      {answer : HTTPOutcome WalletStatusResponse} {wallet : Wallet}
      (hwallet : firstWallet (getWalletStatus.result answer) = some wallet) {refresh : Nat} :
      Trace (.refreshing refresh)
        (o.events ++ [.mainActor, .completion .success, .queryStart] ++
          answers.map .walletStatus ++ [.walletStatus answer])
        (o.calls ++ [o.execution] ++ List.replicate (answers.length + 1) o.poll)
  | refreshed (o : Opening) {answers : List (HTTPOutcome WalletStatusResponse)}
      (hnone : ∀ answer ∈ answers, firstWallet (getWalletStatus.result answer) = none)
      {answer : HTTPOutcome WalletStatusResponse} {wallet : Wallet}
      (hwallet : firstWallet (getWalletStatus.result answer) = some wallet) :
      Trace .ended
        (o.events ++ [.mainActor, .completion .success, .queryStart] ++
          answers.map .walletStatus ++ [.walletStatus answer, .refreshed])
        (o.calls ++ [o.execution] ++ List.replicate (answers.length + 1) o.poll)

/-- A step of a sign-in continues its trace. -/
theorem ContentView.SignInStep.trace {defaults : UserDefaultsManager}
    {view view' : ContentView} {task : Nat} {flow flow' : SignIn} {event : SignIn.Event}
    {e : AppEffect ContentView} (h : view.SignInStep defaults task flow event e)
    (htask : view.signIns[task]? = some flow) (hnext : e.next = .ok view')
    (htask' : view'.signIns[task]? = some flow') {events : List SignIn.Event}
    {calls : List OutsideCall} (htrace : flow.Trace events calls) :
    flow'.Trace (events ++ [event]) (calls ++ e.calls) := by
  cases h with
  | noSession _ | noAccount _ => cases hnext
  | started =>
      obtain rfl := Except.ok.inj hnext
      obtain rfl := eq_of_getElem?_set htask htask'
      cases htrace with
      | started => exact .registering
  | registered =>
      obtain rfl := Except.ok.inj hnext
      obtain rfl := eq_of_getElem?_set htask htask'
      cases htrace with
      | registering => exact .gettingSession
  | gotSession hsession =>
      obtain rfl := Except.ok.inj hnext
      obtain rfl := eq_of_getElem?_set htask htask'
      cases htrace with
      | gettingSession => exact .initializing hsession
  | @gotAccount session account _ haccount =>
      obtain rfl := Except.ok.inj hnext
      obtain rfl := eq_of_getElem?_set htask htask'
      cases htrace with
      | initializing hsession =>
          exact .signingIn ⟨_, _, _, _, session, hsession, _, _, _, haccount⟩
  | executed =>
      obtain rfl := Except.ok.inj hnext
      obtain rfl := eq_of_getElem?_set htask htask'
      cases htrace with
      | signingIn o => exact .executing o
  | succeeded =>
      obtain rfl := Except.ok.inj hnext
      obtain rfl := eq_of_getElem?_set htask htask'
      cases htrace with
      | executing o =>
          have hqueryStarted := SignIn.Trace.queryStarted o
          simpa [Effect.quiet] using hqueryStarted
  | @failed _ displayString =>
      obtain rfl := Except.ok.inj hnext
      obtain rfl := eq_of_getElem?_set htask htask'
      cases htrace with
      | executing o =>
          have hfailed := @SignIn.Trace.failed o displayString
          simpa [Effect.quiet] using hfailed
  | queried =>
      obtain rfl := Except.ok.inj hnext
      obtain rfl := eq_of_getElem?_set htask htask'
      cases htrace with
      | queryStarted o =>
          have hquerying := @SignIn.Trace.querying o [] (by simp)
          simpa [SignIn.Opening.poll] using hquerying
  | noWallet hnone =>
      obtain rfl := Except.ok.inj hnext
      obtain rfl := Option.some.inj (htask.symm.trans htask')
      cases htrace with
      | @querying o answers hbefore =>
          have hquerying := @SignIn.Trace.querying o (answers ++ [_]) (by
            intro answer hanswer
            rcases List.mem_append.mp hanswer with hold | hlast
            · exact hbefore answer hold
            · rw [List.mem_singleton.mp hlast]
              exact hnone)
          rw [List.length_append, List.length_singleton, List.replicate_succ'] at hquerying
          simpa [SignIn.Opening.poll] using hquerying
  | gotWallet hwallet =>
      obtain rfl := Except.ok.inj hnext
      obtain rfl := eq_of_getElem?_set htask htask'
      cases htrace with
      | querying o hbefore =>
          have hrefreshing := @SignIn.Trace.refreshing o _ hbefore _ _ hwallet
            view.refreshes.length
          simpa using hrefreshing
  | refreshed _ =>
      obtain rfl := Except.ok.inj hnext
      obtain rfl := eq_of_getElem?_set htask htask'
      cases htrace with
      | refreshing o hbefore hwallet =>
          have hrefreshed := SignIn.Trace.refreshed o hbefore hwallet
          simpa [Effect.quiet] using hrefreshed

section Tasks

variable {defaults : UserDefaultsManager} {app app' : App} {action : Action}
  {e : AppEffect App} {task : Nat}

/-- A step of something else leaves a sign-in alone, or spawns it. -/
theorem App.Acts.signIn_frame (h : app.Acts defaults action e) (hnext : e.next = .ok app')
    (hother : SignIn.event? task action = none) :
    app'.contentView.signIns[task]? = app.contentView.signIns[task]? ∨
      (app.contentView.signIns[task]? = none ∧
        app'.contentView.signIns[task]? = some .started) := by
  cases h with
  | pass _ _ =>
      obtain ⟨after, -, rfl⟩ := Effect.map_next_ok hnext
      rw [signIns_afterPass]
      exact .inl rfl
  | detail _ _ =>
      obtain ⟨after, -, rfl⟩ := Effect.map_next_ok hnext
      exact .inl rfl
  | openDetail _ =>
      obtain rfl := Except.ok.inj hnext
      exact .inl rfl
  | content h =>
      obtain ⟨view', hview', rfl⟩ := Effect.map_next_ok hnext
      rw [App.contentView_afterContent]
      cases h with
      | tapSignIn _ =>
          obtain rfl := Except.ok.inj hview'
          exact getElem?_concat_or app.contentView.signIns .started task
      | @signIn moved flow event _ htask hstep =>
          obtain ⟨flow', hset⟩ := hstep.signIns_set htask hview'
          have hmoved : moved ≠ task := by
            rintro rfl
            simp [SignIn.event?] at hother
          rw [hset, List.getElem?_set_ne hmoved]
          exact .inl rfl
      | other _ _ _ hsame =>
          rw [(hsame view' hview').1]
          exact .inl rfl

/-- An event of a sign-in is a step of it. -/
theorem App.Acts.signIn_move {event : SignIn.Event}
    (h : app.Acts defaults (.content (.signIn task event)) e) (hnext : e.next = .ok app') :
    ∃ flow flow' inner, app.contentView.signIns[task]? = some flow ∧
      app'.contentView.signIns[task]? = some flow' ∧
      app.contentView.SignInStep defaults task flow event inner ∧ e.calls = inner.calls ∧
      inner.next = .ok app'.contentView := by
  cases h with
  | content h =>
      obtain ⟨view', hview', rfl⟩ := Effect.map_next_ok hnext
      rw [App.contentView_afterContent]
      cases h with
      | other _ htask _ _ => exact absurd rfl (htask task event)
      | @signIn _ flow _ _ htask hstep =>
          obtain ⟨flow', hset⟩ := hstep.signIns_set htask hview'
          refine ⟨flow, flow', _, htask, ?_, hstep, rfl, hview'⟩
          rw [hset, getElem?_set_of_some htask]

end Tasks

/-- Every sign-in follows its trace: one registration, one session, one account
created with that session, one execution of its challenge, and then one status
request more than there were answers without a wallet. -/
theorem signIns_traced {history : List Transit} {s : Installed}
    (run : Run machine.CrashStep freshInstall history s) {app : App}
    (hmemory : s.memory = some app) (task : Nat) :
    Traced SignIn.Trace app.contentView.signIns[task]?
      (taskEvents (SignIn.event? task) (currentProcess history))
      (machine.taskCalls (SignIn.event? task) (currentProcess history)) := by
  refine Machine.task_trace_rule rfl (fun app => app.contentView.signIns[task]?)
    (SignIn.event? task) SignIn.Trace .started ?_ ?_ ?_ run hmemory
  · intro defaults
    simp [machine, App.boot, ContentView.initial]
  · intro defaults app action e app' he hnext hother
    exact (acts_of_step he).signIn_frame hnext hother
  · intro defaults app action e app' event he hnext hevent
    obtain rfl := SignIn.event?_eq_some.mp hevent
    obtain ⟨flow, flow', inner, htask, htask', hstep, hcalls, hinner⟩ :=
      (acts_of_step he).signIn_move hnext
    refine ⟨flow, flow', htask, htask', fun events calls htrace => ?_⟩
    rw [hcalls]
    exact hstep.trace htask hinner htask' htrace

/-- Two overlapping sign-ins, the first one still polling. -/
theorem signIns_traced_of_polling :
    ∃ history s app, Run machine.CrashStep freshInstall history s ∧ s.memory = some app ∧
      app.contentView.signIns[0]? = some (.querying ⟨"token", "key", "challenge"⟩) ∧
      Traced SignIn.Trace app.contentView.signIns[0]?
        (taskEvents (SignIn.event? 0) (currentProcess history))
        (machine.taskCalls (SignIn.event? 0) (currentProcess history)) := by
  have hend : ((replay machine.performCrash freshInstall
      ([.launch, .act (.content .tapSignIn), .act (.content .tapSignIn)] ++
        signInSchedule 1 ((SignIn.untilQuery ⟨"second token", "second key"⟩).take 4) ++
        signInSchedule 0 (SignIn.untilQuery ⟨"token", "key"⟩ ++
          [.walletStatus .error, .walletStatus (.response 200 (some ⟨[]⟩))]))).map
      fun s => s.memory.map fun app => app.contentView.signIns[0]?) =
        some (some (some (.querying ⟨"token", "key", "challenge"⟩))) := by
    decide
  obtain ⟨history, s, run, -, hquerying⟩ := exists_crash_run_of_schedule _ hend
  obtain ⟨app, hmemory, hquerying⟩ := Option.map_eq_some_iff.mp hquerying
  exact ⟨history, s, app, run, hmemory, hquerying, signIns_traced run hmemory 0⟩

end YieldMe

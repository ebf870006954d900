/-
  Credentials.lean --- the stored session and the tasks that use it.

  A session-token response carries a user token and an encryption key.  A sign-in
  stores both at once, and stores the token once more when its wallet is found,
  from the challenge it captured before the SDK screen.  Another sign-in may have
  stored its own pair in between.

  A transaction reads the stored token twice: on the request for its challenge
  and again, after the await, for the execution of that challenge.
-/
import YieldMe.Flows

set_option autoImplicit false

namespace YieldMe

open CircleNetworking ContentView Durable Tasks Transition

/-! ## The stored pair -/

/-- A session-token response reaches its sign-in. -/
def Delivers (session : SessionTokenResponse) (e : Transit) : Prop :=
  ∃ task outcome key,
    e.label = .act (.content (.signIn task (.sessionToken outcome key))) ∧
      getSessionToken.result outcome = some session

/-- The stored token and the stored key come from one session-token response. -/
def Paired (history : List Transit) (defaults : UserDefaultsManager) : Prop :=
  ∀ userToken encryptionKey, defaults.userToken = some userToken →
    defaults.encryptionKey = some encryptionKey →
    ∃ e ∈ history, Delivers ⟨userToken, encryptionKey⟩ e

/-- When `queryWalletStatus` finds a wallet, the stored key is still the one its
challenge was made with. -/
def KeepsPair (e : Transit) : Prop :=
  ∀ task outcome app challenge wallet,
    e.label = .act (.content (.signIn task (.walletStatus outcome))) →
    e.before.memory = some app →
    app.contentView.signIns[task]? = some (.querying challenge) →
    firstWallet (getWalletStatus.result outcome) = some wallet →
    e.before.stored.encryptionKey = some challenge.encryptionKey

/-- The credentials a sign-in task holds. -/
def SignIn.session? : SignIn → Option SessionTokenResponse
  | .initializing session => some session
  | .signingIn challenge => some ⟨challenge.userToken, challenge.encryptionKey⟩
  | .executing challenge => some ⟨challenge.userToken, challenge.encryptionKey⟩
  | .queryStarted challenge => some ⟨challenge.userToken, challenge.encryptionKey⟩
  | .querying challenge => some ⟨challenge.userToken, challenge.encryptionKey⟩
  | _ => none

/-- The credentials of every sign-in task were delivered. -/
def SessionsDelivered (history : List Transit) (app : App) : Prop :=
  app.AllSignIns fun flow => ∀ session, flow.session? = some session →
    ∃ e ∈ history, Delivers session e

/-- A task keeps its credentials, gives them up, or just received them. -/
theorem SignInStep.session?_cases {defaults : UserDefaultsManager}
    {view view' : ContentView} {task : Nat} {flow flow' : SignIn} {event : SignIn.Event}
    {e : AppEffect ContentView} {session : SessionTokenResponse}
    (h : view.SignInStep defaults task flow event e)
    (htask : view.signIns[task]? = some flow) (hnext : e.next = .ok view')
    (htask' : view'.signIns[task]? = some flow') (hsession : flow'.session? = some session) :
    flow.session? = some session ∨
      ∃ outcome key, event = .sessionToken outcome key ∧
        getSessionToken.result outcome = some session := by
  cases h with
  | noSession _ | noAccount _ => cases hnext
  | noWallet _ =>
      have hinj := Except.ok.inj hnext
      subst hinj
      have hinj := Option.some.inj (htask.symm.trans htask')
      subst hinj
      exact .inl hsession
  | gotSession hresult =>
      have hinj := Except.ok.inj hnext
      subst hinj
      have hinj := eq_of_getElem?_set htask htask'
      subst hinj
      have hinj := Option.some.inj hsession
      subst hinj
      exact .inr ⟨_, _, rfl, hresult⟩
  | failed | gotWallet _ =>
      have hinj := Except.ok.inj hnext
      subst hinj
      have hinj := eq_of_getElem?_set htask htask'
      subst hinj
      cases hsession
  | _ =>
      have hinj := Except.ok.inj hnext
      subst hinj
      have hinj := eq_of_getElem?_set htask htask'
      subst hinj
      exact .inl hsession

theorem sessionsDelivered_of_run {history : List Transit} {s : Installed}
    (run : Run machine.Step freshInstall history s) :
    ∀ app, s.memory = some app → SessionsDelivered history app := by
  refine run.history_rule
    (fun history s => ∀ app, s.memory = some app → SessionsDelivered history app) ?_ ?_
  · intro app hmemory
    cases hmemory
  · intro history s l s' _ ih h app' hmemory'
    cases l with
    | terminate =>
        cases h
        cases hmemory'
    | kill action k => cases h
    | launch =>
        cases h
        have happ := Option.some.inj hmemory'
        subst happ
        intro task flow htask
        simp [machine, App.boot, ContentView.initial] at htask
    | act action =>
        obtain ⟨app, e, hmemory, he, -, hnext⟩ := h.act_inv
        have hnext := (hnext app').mp hmemory'
        refine (acts_of_step he).signIns hnext ?_ ?_ ?_ (ih app hmemory)
        · intro flow hflow session hsession
          exact exists_mem_concat.mpr (.inl (hflow session hsession))
        · intro session hsession
          cases hsession
        · intro task flow event inner view' flow' haction htask hflow hstep _ hview' htask'
            session hsession
          rcases SignInStep.session?_cases hstep htask hview' htask' hsession with
            hold | ⟨outcome, key, hevent, hresult⟩
          · exact exists_mem_concat.mpr (.inl (hflow session hold))
          · subst hevent
            exact exists_mem_concat.mpr (.inr ⟨task, outcome, key, by rw [haction], hresult⟩)

/-- A step keeps the pair unless it finds a wallet over another key. -/
theorem Paired.acts {history : List Transit} {s s' : Installed} {app : App}
    {action : Action} {e : AppEffect App} (hmemory : s.memory = some app)
    (h : app.Acts s.stored action e) (hdelivered : SessionsDelivered history app)
    (hkeeps : KeepsPair ⟨s, .act action, s'⟩) (hpaired : Paired history s.stored) :
    Paired history (machine.writeAll s.stored e.writes) := by
  have hwrites := h.writes
  generalize e.writes = writes at hwrites
  cases hwrites with
  | nothing | uuid _ | pass _ _ _ => exact hpaired
  | session _ htask =>
      intro userToken encryptionKey htoken hkey
      have htoken := Option.some.inj htoken
      have hkey := Option.some.inj hkey
      subst htoken hkey
      exact hdelivered _ _ htask _ rfl
  | @wallet task challenge wallet outcome haction htask hwallet =>
      have hown := hkeeps task outcome app challenge wallet (by rw [haction]) hmemory htask
        hwallet
      intro userToken encryptionKey htoken hkey
      have htoken := Option.some.inj htoken
      have hkey := Option.some.inj (hown.symm.trans hkey)
      subst htoken hkey
      exact hdelivered _ _ htask _ rfl

theorem Paired.mono {history : List Transit} {defaults : UserDefaultsManager}
    (hpaired : Paired history defaults) (e : Transit) : Paired (history ++ [e]) defaults := by
  intro userToken encryptionKey htoken hkey
  exact exists_mem_concat.mpr (.inl (hpaired userToken encryptionKey htoken hkey))

/-- In every run in which no wallet is found over a key of another session, the
stored token and the stored key come from one response. -/
theorem paired_of_keepsPair {history : List Transit} {s : Installed}
    (run : Run machine.Step freshInstall history s) (hkeeps : ∀ e ∈ history, KeepsPair e) :
    Paired history s.stored := by
  revert hkeeps
  refine run.history_rule
    (fun history s => (∀ e ∈ history, KeepsPair e) → Paired history s.stored) ?_ ?_
  · intro _ userToken encryptionKey htoken
    cases htoken
  · intro history s l s' run ih h hkeeps
    have hpaired := ih fun e he => hkeeps e (List.mem_append_left _ he)
    have hlast := hkeeps _ (List.mem_append_right _ (List.mem_singleton_self _))
    cases l with
    | act action =>
        obtain ⟨app, e, hmemory, he, hstored, -⟩ := h.act_inv
        have hdelivered := sessionsDelivered_of_run run app hmemory
        rw [hstored]
        exact (hpaired.acts hmemory (acts_of_step he) hdelivered hlast).mono _
    | _ =>
        rw [h.stored_eq (by simp)]
        exact hpaired.mono _

theorem paired_after_sign_in :
    ∃ (history : List Transit) (s : Installed), Run machine.Step freshInstall history s ∧
      s.stored.userToken = some "token" ∧ s.stored.encryptionKey = some "key" ∧
      Paired history s.stored := by
  have hend : ((replay machine.perform freshInstall ([.launch, .act (.content .tapSignIn)] ++
      signInSchedule 0 (SignIn.untilQuery ⟨"token", "key"⟩))).bind fun s =>
        (machine.perform s (.act (.content (.signIn 0
          (SignIn.walletResponse ⟨"id", "address"⟩))))).map fun s' =>
            (s.stored.encryptionKey, s.memory.bind (·.contentView.signIns[0]?),
              s'.stored.userToken, s'.stored.encryptionKey)) =
      some (some "key", some (.querying ⟨"token", "key", "challenge"⟩), some "token",
        some "key") := by
    decide
  obtain ⟨history, s, s', run, hlabels, hstep, hend⟩ := exists_step_of_schedule
    (fun s s' => (s.stored.encryptionKey, s.memory.bind (·.contentView.signIns[0]?),
      s'.stored.userToken, s'.stored.encryptionKey)) hend
  obtain ⟨hkey, hend⟩ := Prod.mk.inj hend
  obtain ⟨hquerying, hend⟩ := Prod.mk.inj hend
  obtain ⟨htoken', hkey'⟩ := Prod.mk.inj hend
  refine ⟨_, s', run.snoc hstep, htoken', hkey', paired_of_keepsPair (run.snoc hstep) ?_⟩
  intro e he task outcome app challenge wallet hlabel hmemory htask _
  rcases List.mem_append.mp he with he | he
  · have hmem := label_mem hlabels he
    rw [hlabel] at hmem
    simp [signInSchedule, SignIn.untilQuery] at hmem
  · have hinj := List.mem_singleton.mp he
    subst hinj
    simp only [SignIn.walletResponse, Label.act.injEq, Action.content.injEq,
      ContentView.Event.signIn.injEq] at hlabel
    obtain ⟨rfl, -⟩ := hlabel
    rw [hmemory, Option.bind_some, htask] at hquerying
    cases hquerying
    exact hkey

/-- Two sign-ins; the first finds its wallet after the second stored its session. -/
def overlappingSchedule : List (Label Action) :=
  [.launch, .act (.content .tapSignIn), .act (.content .tapSignIn)] ++
  signInSchedule 0 (SignIn.untilQuery ⟨"first token", "first key"⟩) ++
  signInSchedule 1 ((SignIn.untilQuery ⟨"second token", "second key"⟩).take 4) ++
  signInSchedule 0 [SignIn.walletResponse ⟨"id", "address"⟩]

theorem not_always_paired :
    ¬ ∀ (history : List Transit) (s : Installed),
      Run machine.Step freshInstall history s → Paired history s.stored := by
  intro hall
  have hend : (replay machine.perform freshInstall overlappingSchedule).map
      (fun s => (s.stored.userToken, s.stored.encryptionKey)) =
        some (some "first token", some "second key") := by
    decide
  obtain ⟨history, s, run, hlabels, hstored⟩ := exists_run_of_schedule _ hend
  obtain ⟨htoken, hkey⟩ := Prod.mk.inj hstored
  obtain ⟨e, he, task, outcome, key, hlabel, hresult⟩ :=
    hall history s run "first token" "second key" htoken hkey
  have hmem := label_mem hlabels he
  rw [hlabel] at hmem
  simp [overlappingSchedule, signInSchedule, SignIn.untilQuery, SignIn.walletResponse]
    at hmem
  rcases hmem with ⟨-, rfl, -⟩ | ⟨-, rfl, -⟩ <;>
    simp [getSessionToken.result, decoded] at hresult

/-! ## The token of a transaction -/

/-- The challenge a transaction task is to execute. -/
def Transaction.Stage.challenge? : Transaction.Stage → Option CircleChallenge
  | .ready challenge => some challenge
  | .executing challenge => some challenge
  | _ => none

/-- A transaction task calls `WalletSdk.execute` with the user token of the
request that returned its challenge. -/
def SameSession (e : Transit) : Prop :=
  ∀ flow app effect userToken encryptionKey challengeIds,
    e.label = .act (Flow.action flow .execute) → e.before.memory = some app →
    machine.step e.before.stored app (flow.action .execute) = some effect →
    .execute userToken encryptionKey challengeIds ∈ effect.calls →
    ∃ t request, app.transaction? flow = some t ∧ t.sent = some request ∧
      request.value? "X-User-Token" = some userToken

/-- When a response passes the guards, the stored token is still the one its
request was sent with. -/
def KeepsToken (e : Transit) : Prop :=
  ∀ flow outcome app t request challenge,
    e.label = .act (Flow.action flow (.response outcome)) → e.before.memory = some app →
    app.transaction? flow = some t → t.sent = some request →
    Transaction.challengeAfterResponse e.before.stored
      (createContractExecutionChallenge.result outcome) = some challenge →
    e.before.stored.userToken = request.value? "X-User-Token"

/-- Every transaction task past its guards holds the token of its request. -/
def TokensKept (_defaults : UserDefaultsManager) (app : App) : Prop :=
  app.AllTransactions fun _ t =>
    (t.stage = .requesting → t.sent.isSome) ∧
      ∀ challenge, t.stage.challenge? = some challenge →
        ∃ request, t.sent = some request ∧
          request.value? "X-User-Token" = some challenge.userToken

theorem TokensKept.acts {s : Installed} {app app' : App} {action : Action}
    {e : AppEffect App} {after : Installed} (hmemory : s.memory = some app)
    (h : app.Acts s.stored action e) (hnext : e.next = .ok app')
    (hkeeps : KeepsToken ⟨s, .act action, after⟩) (htokens : TokensKept s.stored app) :
    TokensKept (machine.writeAll s.stored e.writes) app' := by
  refine h.transactions hnext (fun _ _ ht => ht) ?_ ?_ htokens
  · intro _
    constructor
    · intro hstage
      cases hstage
    · intro _ hchallenge
      cases hchallenge
  · intro flow t code event inner t' haction htask hcode ht hstep _ ht'
    obtain ⟨hsent, hchallenges⟩ := ht
    cases hstep with
    | trapped _ _ => cases ht'
    | requested _ _ =>
        have hinj := Except.ok.inj ht'
        subst hinj
        refine ⟨fun _ => rfl, fun _ hchallenge => ?_⟩
        cases hchallenge
    | returned _ _ | completed _ =>
        have hinj := Except.ok.inj ht'
        subst hinj
        constructor
        · intro hstage
          cases hstage
        · intro _ hchallenge
          cases hchallenge
    | @passed outcome challenge hstage hguards =>
        have hinj := Except.ok.inj ht'
        subst hinj
        constructor
        · intro hstage'
          cases hstage'
        · intro challenge' hchallenge
          have hinj := Option.some.inj hchallenge
          subst hinj
          obtain ⟨request, hrequest⟩ := Option.isSome_iff_exists.mp (hsent hstage)
          have hsame := hkeeps flow outcome app t request challenge (by rw [haction]) hmemory
            htask hrequest hguards
          have htoken := (Transaction.challengeAfterResponse_eq_some.mp hguards).1
          exact ⟨request, hrequest, hsame.symm.trans htoken⟩
    | executed hstage =>
        have hinj := Except.ok.inj ht'
        subst hinj
        constructor
        · intro hstage'
          cases hstage'
        · intro challenge' hchallenge
          exact hchallenges challenge' (by rw [hstage]; exact hchallenge)

theorem tokensKept_of_run {history : List Transit} {s : Installed}
    (run : Run machine.Step freshInstall history s)
    (hkeeps : ∀ e ∈ history, KeepsToken e) {app : App} (hmemory : s.memory = some app) :
    TokensKept s.stored app := by
  refine Machine.run_memory_holds_under TokensKept KeepsToken rfl ?_ ?_ run hkeeps hmemory
  · intro defaults flow t ht
    simp [machine] at ht
  · intro s action s' app e app' hlast hmemory htokens he hnext
    exact htokens.acts hmemory (acts_of_step he) hnext hlast

/-- In every run in which no response passes the guards under another token than
its request carried, every transaction executes its challenge in the session
that created it. -/
theorem sameSession_of_keepsToken {history : List Transit} {s : Installed}
    (run : Run machine.Step freshInstall history s)
    (hkeeps : ∀ e ∈ history, KeepsToken e) : ∀ e ∈ history, SameSession e := by
  intro e he flow app effect userToken encryptionKey challengeIds _ hmemory heffect hcall
  obtain ⟨earlier, later, rfl, hrun, -⟩ := run.of_mem he
  have htokens := tokensKept_of_run hrun
    (fun e' he' => hkeeps e' (List.mem_append_left _ he')) hmemory
  cases (acts_of_step heffect).origin with
  | signIn haction _ _ _ => exact absurd haction (Flow.action_ne_content _ _ _)
  | noTask _ htransaction _ => exact absurd rfl (htransaction _ _)
  | transaction haction htask _ hstep _ hcalls =>
      obtain ⟨rfl, rfl⟩ := Flow.action_inj haction
      cases hstep with
      | executed hstage =>
          rw [hcalls, List.mem_singleton] at hcall
          cases hcall
          obtain ⟨request, hsent, htoken⟩ :=
            (htokens flow _ htask).2 _ (by rw [hstage]; rfl)
          exact ⟨_, request, htask, hsent, htoken⟩

/-- The user token on the request a transaction task sent. -/
def Installed.sentToken? (s : Installed) (flow : Flow) : Option String :=
  (s.transaction? flow).bind fun t => t.sent.bind (·.value? "X-User-Token")

theorem sameSession_of_deposit :
    ∃ (history : List Transit) (s : Installed) (e : Transit),
      Run machine.Step freshInstall history s ∧ e ∈ history ∧
        e.label = .act ((Flow.deposit 0 0).action .execute) ∧ SameSession e := by
  have hend : ((replay machine.perform freshInstall (signedInSchedule ++ tapDepositSchedule ++
      (Flow.deposit 0 0).schedule [.start "idempotency key"])).bind fun s =>
        (machine.perform s (.act ((Flow.deposit 0 0).action
          (.response (.response 201 (some ⟨"challenge"⟩)))))).map fun s' =>
            (s.stored.userToken, Installed.sentToken? s (.deposit 0 0),
              (machine.perform s' (.act ((Flow.deposit 0 0).action .execute))).isSome)) =
      some (some "token", some "token", true) := by
    decide
  obtain ⟨history, s, s', run, hlabels, hresponse, hend⟩ := exists_step_of_schedule
    (fun s s' => (s.stored.userToken, Installed.sentToken? s (.deposit 0 0),
      (machine.perform s' (.act ((Flow.deposit 0 0).action .execute))).isSome)) hend
  obtain ⟨htoken, hend⟩ := Prod.mk.inj hend
  obtain ⟨hsent, hexecute⟩ := Prod.mk.inj hend
  obtain ⟨s'', hexecute⟩ := Option.isSome_iff_exists.mp hexecute
  have run' := (run.snoc hresponse).snoc (Machine.step_of_perform hexecute)
  refine ⟨_, s'', ⟨s', _, s''⟩, run', List.mem_append_right _ (List.mem_singleton_self _), rfl,
    sameSession_of_keepsToken run' ?_ _ (List.mem_append_right _ (List.mem_singleton_self _))⟩
  intro e he flow outcome app t request challenge hlabel hmemory htask hrequest _
  simp only [List.append_assoc, List.mem_append, List.mem_singleton] at he
  rcases he with he | rfl | rfl
  · have hmem := label_mem hlabels he
    rw [hlabel] at hmem
    cases flow <;> simp [signedInSchedule, signInSchedule, SignIn.untilQuery,
      SignIn.walletResponse, tapDepositSchedule, Flow.schedule, Flow.action] at hmem
  · obtain ⟨rfl, -⟩ := Flow.action_inj (Label.act.inj hlabel)
    rw [Installed.sentToken?, Installed.transaction?, hmemory, Option.bind_some, htask,
      Option.bind_some, hrequest, Option.bind_some] at hsent
    exact htoken.trans hsent.symm
  · cases (Flow.action_inj (Label.act.inj hlabel)).2

/-- A second sign-in stores its session while the request of a deposit is
pending. -/
def sessionSwitchSchedule : List (Label Action) :=
  [.launch, .act (.content .tapSignIn), .act (.content .tapSignIn)] ++
  signInSchedule 0 (SignIn.untilQuery ⟨"first token", "first key"⟩) ++
  signInSchedule 0 [SignIn.walletResponse ⟨"id", "address"⟩] ++
  signInSchedule 1 ((SignIn.untilQuery ⟨"second token", "second key"⟩).take 3) ++
  tapDepositSchedule ++ (Flow.deposit 0 0).schedule [.start "idempotency key"] ++
  signInSchedule 1 [.account (.response 201 (some ⟨"challenge"⟩))] ++
  (Flow.deposit 0 0).schedule [.response (.response 201 (some ⟨"challenge"⟩))]

theorem not_always_sameSession :
    ¬ ∀ (history : List Transit) (s : Installed), Run machine.Step freshInstall history s →
      ∀ e ∈ history, SameSession e := by
  intro hall
  have hend : ((replay machine.perform freshInstall sessionSwitchSchedule).bind fun s =>
      (machine.perform s (.act ((Flow.deposit 0 0).action .execute))).map fun _ =>
        (Installed.sentToken? s (.deposit 0 0), s.memory.bind fun app =>
          (machine.step s.stored app ((Flow.deposit 0 0).action .execute)).map (·.calls))) =
      some (some "first token",
        some [.execute "second token" "second key" ["challenge"]]) := by
    decide
  obtain ⟨history, s, s', run, -, hexecute, hend⟩ := exists_step_of_schedule
    (fun s _ => (Installed.sentToken? s (.deposit 0 0), s.memory.bind fun app =>
      (machine.step s.stored app ((Flow.deposit 0 0).action .execute)).map (·.calls))) hend
  obtain ⟨hsent, hcalls⟩ := Prod.mk.inj hend
  obtain ⟨app, hmemory, hcalls⟩ := Option.bind_eq_some_iff.mp hcalls
  obtain ⟨effect, heffect, hcalls⟩ := Option.map_eq_some_iff.mp hcalls
  obtain ⟨t, request, htask, hrequest, htoken⟩ := hall _ s' (run.snoc hexecute) _
    (List.mem_append_right _ (List.mem_singleton_self _)) (.deposit 0 0) app effect
    "second token" "second key" ["challenge"] rfl hmemory heffect (by rw [hcalls]; simp)
  rw [Installed.sentToken?, Installed.transaction?, hmemory, Option.bind_some, htask,
    Option.bind_some, hrequest, Option.bind_some, htoken] at hsent
  simp at hsent

end YieldMe

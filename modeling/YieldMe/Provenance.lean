/-
  Provenance.lean --- where the credentials of the installed app come from.

  The Circle API issues user tokens, encryption keys, challenge ids and wallets.
  The app stores them, carries them in its tasks across awaits, and hands them
  back in requests and in calls of the wallet SDK.  Whatever it hands back was
  issued to it before, in this process or in an earlier one, also when processes
  are killed between two settings writes.
-/
import YieldMe.Calls
import YieldMe.Credentials
import YieldMe.HumanProof

set_option autoImplicit false

namespace YieldMe

open CircleNetworking ContentView Durable Tasks Transition

/-- A value that the Circle API issues. -/
inductive Credential where
  | userToken (userToken : String)
  | encryptionKey (encryptionKey : String)
  | challengeId (challengeId : String)
  | walletID (id : String)
  | walletAddress (address : String)
  deriving DecidableEq, Repr

/-! ## What is issued -/

def SessionTokenResponse.credentials (session : SessionTokenResponse) : List Credential :=
  [.userToken session.userToken, .encryptionKey session.encryptionKey]

def CircleChallenge.credentials (challenge : CircleChallenge) : List Credential :=
  [.userToken challenge.userToken, .encryptionKey challenge.encryptionKey,
    .challengeId challenge.challengeId]

def Wallet.credentials (wallet : Wallet) : List Credential :=
  [.walletID wallet.id, .walletAddress wallet.address]

/-- What a sign-in takes from the response an event delivers. -/
def SignIn.Event.issues : SignIn.Event → List Credential
  | .sessionToken outcome _ =>
      (getSessionToken.result outcome).toList.flatMap SessionTokenResponse.credentials
  | .account outcome =>
      (initializeAccount.result outcome).toList.map fun account =>
        .challengeId account.challengeId
  | .walletStatus outcome =>
      (firstWallet (getWalletStatus.result outcome)).toList.flatMap Wallet.credentials
  | _ => []

/-- What a transaction takes from the response an event delivers. -/
def Transaction.Event.issues : Transaction.Event → List Credential
  | .response outcome =>
      (createContractExecutionChallenge.result outcome).toList.map fun response =>
        .challengeId response.challengeId
  | _ => []

def Action.issues : Action → List Credential
  | .content (.signIn _ event) => event.issues
  | .pass _ (.mint _ event) => event.issues
  | .detail _ (.deposit _ event) => event.issues
  | _ => []

@[simp] theorem Flow.issues_action (flow : Flow) (event : Transaction.Event) :
    (flow.action event).issues = event.issues := by
  cases flow <;> rfl

/-- A transition delivers the response that issues a credential, in a step that
runs to its end or in one that is cut short. -/
def Issues (e : Transit) (v : Credential) : Prop :=
  ∃ action, v ∈ action.issues ∧ (e.label = .act action ∨ ∃ k, e.label = .kill action k)

/-! ## What is held -/

/-- The credentials a write stores. -/
def SettingsWrite.credentials : SettingsWrite → List Credential
  | .encryptionKey newValue => newValue.toList.map .encryptionKey
  | .userToken newValue => newValue.toList.map .userToken
  | .walletAddress newValue => newValue.toList.map .walletAddress
  | .walletID newValue => newValue.toList.map .walletID
  | _ => []

def UserDefaultsManager.credentials (defaults : UserDefaultsManager) : List Credential :=
  defaults.encryptionKey.toList.map .encryptionKey ++
  defaults.userToken.toList.map .userToken ++
  defaults.walletAddress.toList.map .walletAddress ++
  defaults.walletID.toList.map .walletID

def SignIn.credentials : SignIn → List Credential
  | .initializing session => session.credentials
  | .signingIn challenge => challenge.credentials
  | .executing challenge => challenge.credentials
  | .queryStarted challenge => challenge.credentials
  | .querying challenge => challenge.credentials
  | _ => []

def Transaction.credentials (t : Transaction) : List Credential :=
  t.stage.challenge?.toList.flatMap CircleChallenge.credentials

/-- A sign-in task of the process holds the credential. -/
def App.SignInHas (app : App) (v : Credential) : Prop :=
  ∃ (task : Nat) (flow : SignIn), app.contentView.signIns[task]? = some flow ∧
    v ∈ flow.credentials

/-- A transaction task of the process holds the credential. -/
def App.TransactionHas (app : App) (v : Credential) : Prop :=
  ∃ flow t, app.transaction? flow = some t ∧ v ∈ t.credentials

/-- The credential is stored, or held by a task of the running process. -/
def Installed.Has (s : Installed) (v : Credential) : Prop :=
  v ∈ s.stored.credentials ∨
    ∃ app, s.memory = some app ∧ (app.SignInHas v ∨ app.TransactionHas v)

/-! ## What a step takes on -/

theorem UserDefaultsManager.credentials_write {defaults : UserDefaultsManager}
    {w : SettingsWrite} {v : Credential} (hv : v ∈ (defaults.write w).credentials) :
    v ∈ defaults.credentials ∨ v ∈ w.credentials := by
  cases w <;>
    simp only [UserDefaultsManager.credentials, UserDefaultsManager.write,
      SettingsWrite.credentials, List.mem_append] at hv ⊢ <;> tauto

theorem credentials_writeAll (writes : List SettingsWrite) {v : Credential} :
    ∀ {defaults : UserDefaultsManager}, v ∈ (machine.writeAll defaults writes).credentials →
      v ∈ defaults.credentials ∨ ∃ w ∈ writes, v ∈ w.credentials := by
  induction writes with
  | nil => intro defaults hv; exact .inl hv
  | cons w writes ih =>
      intro defaults hv
      rcases ih hv with hv | ⟨w', hmem, hv⟩
      · rcases UserDefaultsManager.credentials_write hv with hold | hnew
        · exact .inl hold
        · exact .inr ⟨w, List.mem_cons_self, hnew⟩
      · exact .inr ⟨w', List.mem_cons_of_mem w hmem, hv⟩

section Steps

variable {defaults : UserDefaultsManager} {app app' : App} {action : Action}
  {e : AppEffect App} {v : Credential}

/-- A step stores what a sign-in task holds, and what its own event issues. -/
theorem App.Acts.credentials_writes (h : app.Acts defaults action e) {w : SettingsWrite}
    (hw : w ∈ e.writes) (hv : v ∈ w.credentials) :
    app.SignInHas v ∨ v ∈ action.issues := by
  have hwrites := h.writes
  generalize e.writes = writes at hw hwrites
  cases hwrites with
  | nothing => cases hw
  | uuid _ | pass _ _ _ =>
      rw [List.mem_singleton.mp hw] at hv
      cases hv
  | @session task session outcome _ htask =>
      refine .inl ⟨task, _, htask, ?_⟩
      simp only [sessionWrites, List.mem_cons, List.not_mem_nil, or_false] at hw
      rcases hw with rfl | rfl
      · rw [List.mem_singleton.mp hv]
        exact List.mem_cons_self
      · rw [List.mem_singleton.mp hv]
        exact List.mem_cons_of_mem _ List.mem_cons_self
  | @wallet task challenge wallet outcome haction htask hwallet =>
      have hissues : ∀ v ∈ wallet.credentials, v ∈ action.issues := by
        intro v hv
        rw [haction, Action.issues, SignIn.Event.issues, hwallet]
        simpa using hv
      simp only [walletWrites, List.mem_cons, List.not_mem_nil, or_false] at hw
      rcases hw with rfl | rfl | rfl
      · rw [List.mem_singleton.mp hv]
        exact .inr (hissues _ (by simp [Wallet.credentials]))
      · rw [List.mem_singleton.mp hv]
        exact .inr (hissues _ (by simp [Wallet.credentials]))
      · rw [List.mem_singleton.mp hv]
        exact .inl ⟨task, _, htask, List.mem_cons_self⟩

/-- A sign-in task takes on what its own event issues. -/
theorem ContentView.SignInStep.credentials_cases {view view' : ContentView} {task : Nat}
    {flow flow' : SignIn} {event : SignIn.Event} {e : AppEffect ContentView}
    (h : view.SignInStep defaults task flow event e)
    (htask : view.signIns[task]? = some flow) (hnext : e.next = .ok view')
    (htask' : view'.signIns[task]? = some flow') (hv : v ∈ flow'.credentials) :
    v ∈ flow.credentials ∨ v ∈ event.issues := by
  cases h with
  | noSession _ | noAccount _ => cases hnext
  | noWallet _ =>
      obtain rfl := Except.ok.inj hnext
      obtain rfl := Option.some.inj (htask.symm.trans htask')
      exact .inl hv
  | gotSession hresult =>
      obtain rfl := Except.ok.inj hnext
      obtain rfl := eq_of_getElem?_set htask htask'
      rw [SignIn.Event.issues, hresult]
      exact .inr (by simpa [SignIn.credentials] using hv)
  | gotAccount hresult =>
      obtain rfl := Except.ok.inj hnext
      obtain rfl := eq_of_getElem?_set htask htask'
      rw [SignIn.Event.issues, hresult]
      simp only [SignIn.credentials, CircleChallenge.credentials, List.mem_cons,
        List.not_mem_nil, or_false] at hv
      rcases hv with rfl | rfl | rfl
      · exact .inl List.mem_cons_self
      · exact .inl (List.mem_cons_of_mem _ List.mem_cons_self)
      · exact .inr List.mem_cons_self
  | started | registered | failed | gotWallet _ | refreshed _ =>
      obtain rfl := Except.ok.inj hnext
      obtain rfl := eq_of_getElem?_set htask htask'
      cases hv
  | executed | succeeded | queried =>
      obtain rfl := Except.ok.inj hnext
      obtain rfl := eq_of_getElem?_set htask htask'
      exact .inl hv

/-- A transaction task takes on the stored session and what its event issues. -/
theorem Transaction.Step.credentials_cases {code : TransactionCode} {t t' : Transaction}
    {event : Transaction.Event} {e : AppEffect Transaction}
    (h : t.Step code defaults event e) (hnext : e.next = .ok t') (hv : v ∈ t'.credentials) :
    v ∈ t.credentials ∨ v ∈ event.issues ∨ v ∈ defaults.credentials := by
  cases h with
  | trapped _ _ => cases hnext
  | requested _ _ | returned _ _ | completed _ =>
      obtain rfl := Except.ok.inj hnext
      cases hv
  | executed hstage =>
      obtain rfl := Except.ok.inj hnext
      rw [Transaction.credentials, hstage]
      exact .inl hv
  | @passed outcome challenge _ hguards =>
      obtain rfl := Except.ok.inj hnext
      obtain ⟨htoken, hkey, hresponse⟩ := challengeAfterResponse_eq_some.mp hguards
      have hv : v ∈ challenge.credentials := by
        simpa [Transaction.credentials, Transaction.Stage.challenge?] using hv
      simp only [CircleChallenge.credentials, List.mem_cons, List.not_mem_nil, or_false]
        at hv
      rcases hv with rfl | rfl | rfl
      · exact .inr (.inr (by simp [UserDefaultsManager.credentials, htoken]))
      · exact .inr (.inr (by simp [UserDefaultsManager.credentials, hkey]))
      · exact .inr (.inl (by simp [Transaction.Event.issues, hresponse]))

/-- What the tasks hold after a step. -/
theorem App.Acts.has_cases (h : app.Acts defaults action e) (hnext : e.next = .ok app')
    (hv : app'.SignInHas v ∨ app'.TransactionHas v) :
    v ∈ defaults.credentials ∨ app.SignInHas v ∨ app.TransactionHas v ∨
      v ∈ action.issues := by
  rcases hv with ⟨task, flow', htask', hv⟩ | ⟨flow, t', ht', hv⟩
  · rcases h.signIn_cases hnext htask' with hold | rfl |
      ⟨flow, event, inner, view', rfl, htask, hstep, -, hview', hset⟩
    · exact .inr (.inl ⟨task, flow', hold, hv⟩)
    · cases hv
    · have htask'' : view'.signIns[task]? = some flow' := by
        rw [hset]
        exact getElem?_set_of_some htask flow'
      rcases hstep.credentials_cases htask hview' htask'' hv with hold | hnew
      · exact .inr (.inl ⟨task, flow, htask, hold⟩)
      · exact .inr (.inr (.inr hnew))
  · rcases h.transaction_cases hnext ht' with hold | rfl |
      ⟨t, code, event, inner, rfl, ht, -, hstep, -, hinner⟩
    · exact .inr (.inr (.inl ⟨flow, t', hold, hv⟩))
    · cases hv
    · rcases hstep.credentials_cases hinner hv with hold | hnew | hstored
      · exact .inr (.inr (.inl ⟨flow, t, ht, hold⟩))
      · exact .inr (.inr (.inr (by rwa [Flow.issues_action])))
      · exact .inl hstored

end Steps

/-- What the installed app has after a transition, it had before or was issued
with it. -/
theorem has_step {s s' : Installed} {l : Label Action} (h : machine.CrashStep s l s')
    {v : Credential} (hv : s'.Has v) : s.Has v ∨ Issues ⟨s, l, s'⟩ v := by
  cases h with
  | @kill defaults app action effect k h _ =>
      have hacts := acts_of_step h
      rcases hv with hv | ⟨app', hmemory, -⟩
      · rcases credentials_writeAll _ hv with hold | ⟨w, hw, hv⟩
        · exact .inl (.inl hold)
        · rcases hacts.credentials_writes (List.mem_of_mem_take hw) hv with htask | hissues
          · exact .inl (.inr ⟨app, rfl, .inl htask⟩)
          · exact .inr ⟨action, hissues, .inr ⟨k, rfl⟩⟩
      · cases hmemory
  | whole h =>
      cases l with
      | kill action k => cases h
      | terminate =>
          cases h
          rcases hv with hv | ⟨app', hmemory, -⟩
          · exact .inl (.inl hv)
          · cases hmemory
      | launch =>
          cases h
          rcases hv with hv | ⟨app', hmemory, ⟨task, flow, htask, -⟩ | ⟨flow, t, ht, -⟩⟩
          · exact .inl (.inl hv)
          · obtain rfl := Option.some.inj hmemory
            simp [machine, App.boot, ContentView.initial] at htask
          · obtain rfl := Option.some.inj hmemory
            simp [machine] at ht
      | act action =>
          obtain ⟨app, effect, hmemory, heffect, hstored, hnext⟩ := h.act_inv
          have hacts := acts_of_step heffect
          rcases hv with hv | ⟨app', hmemory', hv⟩
          · rw [hstored] at hv
            rcases credentials_writeAll _ hv with hold | ⟨w, hw, hv⟩
            · exact .inl (.inl hold)
            · rcases hacts.credentials_writes hw hv with htask | hissues
              · exact .inl (.inr ⟨app, hmemory, .inl htask⟩)
              · exact .inr ⟨action, hissues, .inl rfl⟩
          · rcases hacts.has_cases ((hnext app').mp hmemory') hv with
              hold | hsignIn | htransaction | hissues
            · exact .inl (.inl hold)
            · exact .inl (.inr ⟨app, hmemory, .inl hsignIn⟩)
            · exact .inl (.inr ⟨app, hmemory, .inr htransaction⟩)
            · exact .inr ⟨action, hissues, .inl rfl⟩

theorem not_has_freshInstall (v : Credential) : ¬ freshInstall.Has v := by
  rintro (hv | ⟨app, hmemory, -⟩)
  · simp [freshInstall, UserDefaultsManager.credentials] at hv
  · cases hmemory

/-! ## What is handed back -/

/-- A call hands a credential to the Circle API or to the wallet SDK. -/
inductive OutsideCall.Carries : OutsideCall → Credential → Prop
  | header {request : URLRequest} {userToken : String}
      (h : request.value? "X-User-Token" = some userToken) :
      Carries (.request request) (.userToken userToken)
  | account {request : URLRequest} {model : InitializeAccountRequest}
      (h : request.httpBody = some (.initializeAccount model)) :
      Carries (.request request) (.userToken model.userToken)
  | wallet {request : URLRequest} {model : ContractExecutionChallengeRequest}
      (h : request.httpBody = some (.contractExecutionChallenge model)) :
      Carries (.request request) (.walletID model.walletId)
  | address {request : URLRequest} {model : ContractExecutionChallengeRequest}
      {address : String} {parameters : List String}
      (h : request.httpBody = some (.contractExecutionChallenge model))
      (hpass : PremiumPassView.isBuyPass model)
      (hparameters : model.abiParameters = some (address :: parameters)) :
      Carries (.request request) (.walletAddress address)
  | balance {request : URLRequest} {userToken id : String}
      (h : request = getWalletBalance.request userToken id) :
      Carries (.request request) (.walletID id)
  | execute {userToken encryptionKey : String} {challengeIds : List String} :
      Carries (.execute userToken encryptionKey challengeIds) (.userToken userToken)
  | key {userToken encryptionKey : String} {challengeIds : List String} :
      Carries (.execute userToken encryptionKey challengeIds) (.encryptionKey encryptionKey)
  | challenge {userToken encryptionKey : String} {challengeIds : List String}
      {challengeId : String} (h : challengeId ∈ challengeIds) :
      Carries (.execute userToken encryptionKey challengeIds) (.challengeId challengeId)

namespace CircleNetworking

/-- What a request of the file carries: its user token, what its body takes from
a session or a wallet, or the id of the wallet it asks about. -/
theorem createRequest_carries {url method apiKey : String} {userToken : Option String}
    {body : Option HTTPBody} {v : Credential}
    (h : (OutsideCall.request (createRequest url method apiKey userToken body)).Carries v) :
    (∃ token, userToken = some token ∧ v = .userToken token) ∨
      (∃ model, body = some (.initializeAccount model) ∧ v = .userToken model.userToken) ∨
      (∃ model, body = some (.contractExecutionChallenge model) ∧
        (v = .walletID model.walletId ∨ ∃ address parameters,
          PremiumPassView.isBuyPass model ∧
            model.abiParameters = some (address :: parameters) ∧
            v = .walletAddress address)) ∨
      (∃ id, url = baseUrl ++ "/wallets/" ++ id ++ "/balances" ∧ userToken = none ∧
        body = none ∧ v = .walletID id) := by
  cases h with
  | header hvalue =>
      rw [createRequest_userToken] at hvalue
      exact .inl ⟨_, hvalue, rfl⟩
  | account hbody => exact .inr (.inl ⟨_, hbody, rfl⟩)
  | wallet hbody => exact .inr (.inr (.inl ⟨_, hbody, .inl rfl⟩))
  | address hbody hpass hparameters =>
      exact .inr (.inr (.inl ⟨_, hbody, .inr ⟨_, _, hpass, hparameters, rfl⟩⟩))
  | @balance _ token id hrequest =>
      have htoken := congrArg (·.value? "X-User-Token") hrequest
      simp only [getWalletBalance.request, createRequest_userToken] at htoken
      have hurl := congrArg URLRequest.url hrequest
      have hbody := congrArg URLRequest.httpBody hrequest
      subst htoken
      exact .inr (.inr (.inr ⟨id, hurl, rfl, hbody, rfl⟩))

theorem not_carries_registerUser (userId : String) (v : Credential) :
    ¬ (OutsideCall.request (registerUser.request userId)).Carries v := by
  intro h
  have hcases := createRequest_carries h
  simp at hcases

theorem not_carries_getSessionToken (userId : String) (v : Credential) :
    ¬ (OutsideCall.request (getSessionToken.request userId)).Carries v := by
  intro h
  have hcases := createRequest_carries h
  simp at hcases

theorem initializeAccount_carries {key userToken : String} {blockchains : List String}
    {v : Credential}
    (h : (OutsideCall.request (initializeAccount.request key userToken blockchains)).Carries
      v) : v = .userToken userToken := by
  have hcases := createRequest_carries h
  simpa using hcases

theorem getWalletStatus_carries {userToken : String} {v : Credential}
    (h : (OutsideCall.request (getWalletStatus.request userToken)).Carries v) :
    v = .userToken userToken := by
  have hcases := createRequest_carries h
  simpa using hcases

theorem getWalletBalance_carries {userToken walletID : String} {v : Credential}
    (h : (OutsideCall.request (getWalletBalance.request userToken walletID)).Carries v) :
    v = .walletID walletID := by
  rcases createRequest_carries h with ⟨_, htoken, -⟩ | ⟨_, hbody, -⟩ | ⟨_, hbody, -⟩ |
    ⟨id, hurl, -, -, rfl⟩
  · cases htoken
  · cases hbody
  · cases hbody
  · simp only [String.ext_iff, String.toList_append, List.append_assoc,
      List.append_cancel_left_eq, List.append_cancel_right_eq] at hurl
    rw [String.ext hurl]

end CircleNetworking

theorem execute_carries {challenge : CircleChallenge} {v : Credential}
    (h : (OutsideCall.execute challenge.userToken challenge.encryptionKey
      [challenge.challengeId]).Carries v) : v ∈ challenge.credentials := by
  cases h with
  | execute => exact List.mem_cons_self
  | key => exact List.mem_cons_of_mem _ List.mem_cons_self
  | challenge hid =>
      rw [List.mem_singleton.mp hid]
      exact List.mem_cons_of_mem _ (List.mem_cons_of_mem _ List.mem_cons_self)

/-- The address a purchase names is the stored one. -/
theorem PremiumPassView.passRequestModel_address {proof : Option WrappedProof}
    {defaults : UserDefaultsManager} {idempotencyKey : String}
    {model : ContractExecutionChallengeRequest}
    (h : passRequestModel proof defaults idempotencyKey = .ok model) {address : String}
    {parameters : List String} (hparameters : model.abiParameters = some (address :: parameters)) :
    defaults.walletAddress = some address := by
  obtain ⟨walletAddress, haddress, h⟩ := bind_eq_ok.mp h
  obtain ⟨proof, _, h⟩ := bind_eq_ok.mp h
  obtain ⟨merkleRoot, _, h⟩ := bind_eq_ok.mp h
  obtain ⟨nullifierHash, _, h⟩ := bind_eq_ok.mp h
  obtain ⟨walletID, _, h⟩ := bind_eq_ok.mp h
  have hinj := Except.ok.inj h
  subst hinj
  rw [unwrap_eq_ok] at haddress
  rw [haddress, (List.cons.inj (Option.some.inj hparameters)).1]

theorem Flow.Runs.address_of_requestModel {flow : Flow} {code : TransactionCode}
    (h : flow.Runs code) {defaults : UserDefaultsManager} {idempotencyKey : String}
    {model : ContractExecutionChallengeRequest}
    (hmodel : code.requestModel defaults idempotencyKey = .ok model)
    (hpass : PremiumPassView.isBuyPass model) {address : String} {parameters : List String}
    (hparameters : model.abiParameters = some (address :: parameters)) :
    defaults.walletAddress = some address := by
  cases h with
  | mint view => exact PremiumPassView.passRequestModel_address hmodel hparameters
  | deposit view => exact absurd hpass (ProtocolDetailView.depositRequestModel_not_buyPass hmodel)

/-- What the process hands back was stored, held by a task, or issued with the
step. -/
theorem App.Calls.carries {defaults : UserDefaultsManager} {app : App} {action : Action}
    {call : OutsideCall} {v : Credential} (h : app.Calls defaults action call)
    (hv : call.Carries v) :
    v ∈ defaults.credentials ∨ app.SignInHas v ∨ app.TransactionHas v ∨
      v ∈ action.issues := by
  cases h with
  | registerUser _ _ => exact absurd hv (not_carries_registerUser _ v)
  | getSessionToken _ _ => exact absurd hv (not_carries_getSessionToken _ v)
  | initializeAccount haction _ hresult =>
      rw [initializeAccount_carries hv, haction, Action.issues, SignIn.Event.issues, hresult]
      exact .inr (.inr (.inr (by simp [SessionTokenResponse.credentials])))
  | signIn _ htask => exact .inr (.inl ⟨_, _, htask, execute_carries hv⟩)
  | getWalletStatus _ htask hflow =>
      refine .inr (.inl ⟨_, _, htask, ?_⟩)
      rw [getWalletStatus_carries hv]
      rcases hflow with rfl | rfl <;> exact List.mem_cons_self
  | getWalletBalance _ hid _ =>
      rw [getWalletBalance_carries hv]
      exact .inl (by simp [UserDefaultsManager.credentials, hid])
  | transaction _ _ hcode hmodel =>
      apply Or.inl
      rcases createRequest_carries hv with ⟨token, htoken, rfl⟩ | ⟨_, hbody, -⟩ |
        ⟨model', hbody, hcarried⟩ | ⟨_, -, -, hbody, -⟩
      · simp [UserDefaultsManager.credentials, htoken]
      · cases hbody
      · obtain rfl := HTTPBody.contractExecutionChallenge.inj (Option.some.inj hbody)
        rcases hcarried with rfl | ⟨address, parameters, hpass, hparameters, rfl⟩
        · simp [UserDefaultsManager.credentials, hcode.walletID_of_requestModel hmodel]
        · have haddress := hcode.address_of_requestModel hmodel hpass hparameters
          simp [UserDefaultsManager.credentials, haddress]
      · cases hbody
  | execute _ htask hstage =>
      refine .inr (.inr (.inl ⟨_, _, htask, ?_⟩))
      rw [Transaction.credentials, hstage]
      simpa [Transaction.Stage.challenge?] using execute_carries hv
  | openURL | getDocuments => cases hv

/-! ## The law -/

/-- A transition hands a credential back in one of its calls. -/
def HandsBack (e : Transit) (v : Credential) : Prop :=
  ∃ call, Makes e call ∧ call.Carries v

/-- Every stored credential was issued in the history, and every credential that
a transition hands back was issued with it or before it. -/
def CredentialsIssued (history : List Transit) (stored : UserDefaultsManager) : Prop :=
  (∀ v ∈ stored.credentials, ∃ b ∈ history, Issues b v) ∧
    ∀ earlier e later v, history = earlier ++ e :: later → HandsBack e v →
      ∃ b ∈ earlier ++ [e], Issues b v

theorem HandsBack.has {e : Transit} {v : Credential} (h : HandsBack e v) :
    e.before.Has v ∨ Issues e v := by
  obtain ⟨call, ⟨app, action, effect, hmemory, heffect, hcall, hlabel⟩, hv⟩ := h
  rcases ((App.step_of_some heffect).calls hcall).carries hv with
    hstored | hsignIn | htransaction | hissued
  · exact .inl (.inl hstored)
  · exact .inl (.inr ⟨app, hmemory, .inl hsignIn⟩)
  · exact .inl (.inr ⟨app, hmemory, .inr htransaction⟩)
  · exact .inr ⟨action, hissued, hlabel.imp id fun hkill => ⟨_, hkill⟩⟩

/-- The app never makes up a credential, mixes one in or keeps one that was not
issued to it, whatever the order of its tasks and wherever its processes are
killed. -/
theorem credentialsIssued {history : List Transit} {s : Installed}
    (run : Run machine.CrashStep freshInstall history s) :
    CredentialsIssued history s.stored := by
  constructor
  · intro v hv
    exact run.origin not_has_freshInstall (fun _ _ _ h _ => has_step h) (.inl hv)
  · rintro earlier e later v rfl hback
    exact run.origin_of_use not_has_freshInstall (fun _ _ _ h _ => has_step h)
      (fun _ _ _ h => h.has) hback

/-- A sign-in killed after it stored its token, a second one, and a deposit. -/
theorem credentialsIssued_after_kill :
    ∃ history s, Run machine.CrashStep freshInstall history s ∧
      s.stored.userToken = some "token" ∧ s.stored.walletID = some "id" ∧
      CredentialsIssued history s.stored := by
  have hend : (replay machine.performCrash freshInstall
      ([.launch, .act (.content .tapSignIn)] ++
        signInSchedule 0 ((SignIn.untilQuery ⟨"first token", "first key"⟩).take 3) ++
        [.kill (.content (.signIn 0 (.account (.response 201 (some ⟨"challenge"⟩))))) 1] ++
        signedInSchedule ++ tapDepositSchedule ++
        (Flow.deposit 0 0).schedule Transaction.untilCompletion)).map
      (fun s => (s.stored.userToken, s.stored.walletID)) = some (some "token", some "id") := by
    decide
  obtain ⟨history, s, run, -, hstored⟩ := exists_crash_run_of_schedule _ hend
  obtain ⟨htoken, hid⟩ := Prod.mk.inj hstored
  exact ⟨history, s, run, htoken, hid, credentialsIssued run⟩

end YieldMe

/-
  Steps.lean --- what a step of the app does to its tasks.

  Seen from the tasks, a step of a view is the tap that spawns one, a step of
  one, or a step that writes no setting and leaves the tasks and their busy flag
  alone.  `App.Acts` puts the three views together.  The invariants about tasks
  are derived from these lists and never from the definition of `App.step`.

  Two rules rest on this, for laws that hold of every transaction task, or of
  every sign-in task, of a process: such a law survives a step when the settings
  may change under it, when a fresh task has it, and when a step of a task passes
  it on.
-/
import YieldMe.Views

set_option autoImplicit false

namespace YieldMe

open CircleNetworking Durable Tasks

/-! ## Steps of a sign-in -/

/-- The steps of a sign-in task, one constructor for each way a step can go. -/
inductive ContentView.SignInStep (defaults : UserDefaultsManager) (view : ContentView)
    (task : Nat) : SignIn → SignIn.Event → AppEffect ContentView → Prop
  | started {newUuid : String} :
      SignInStep defaults view task .started (.start newUuid)
        ⟨if defaults.uuid.isSome then [] else [.uuid newUuid],
          [.request (registerUser.request (defaults.uuid.getD newUuid))],
          .ok (view.setSignIn task (.registering (defaults.uuid.getD newUuid)))⟩
  | registered {userId : String} {outcome : HTTPOutcome Unit} :
      SignInStep defaults view task (.registering userId) (.registered outcome)
        ⟨[], [.request (getSessionToken.request userId)],
          .ok (view.setSignIn task (.gettingSession userId))⟩
  | noSession {userId key : String} {outcome : HTTPOutcome SessionTokenResponse}
      (h : getSessionToken.result outcome = none) :
      SignInStep defaults view task (.gettingSession userId) (.sessionToken outcome key)
        (.trap .sessionToken)
  | gotSession {userId key : String} {outcome : HTTPOutcome SessionTokenResponse}
      {session : SessionTokenResponse} (h : getSessionToken.result outcome = some session) :
      SignInStep defaults view task (.gettingSession userId) (.sessionToken outcome key)
        ⟨[], [.request (initializeAccount.request key session.userToken ["MATIC-MUMBAI"])],
          .ok (view.setSignIn task (.initializing session))⟩
  | noAccount {session : SessionTokenResponse}
      {outcome : HTTPOutcome InitializeAccountResponse}
      (h : initializeAccount.result outcome = none) :
      SignInStep defaults view task (.initializing session) (.account outcome)
        ⟨sessionWrites session, [], .error .account⟩
  | gotAccount {session : SessionTokenResponse}
      {outcome : HTTPOutcome InitializeAccountResponse}
      {account : InitializeAccountResponse}
      (h : initializeAccount.result outcome = some account) :
      SignInStep defaults view task (.initializing session) (.account outcome)
        ⟨sessionWrites session, [], .ok (view.setSignIn task (.signingIn
          ⟨session.userToken, session.encryptionKey, account.challengeId⟩))⟩
  | executed {challenge : CircleChallenge} :
      SignInStep defaults view task (.signingIn challenge) .mainActor
        ⟨[], [.execute challenge.userToken challenge.encryptionKey [challenge.challengeId]],
          .ok (view.setSignIn task (.executing challenge))⟩
  | succeeded {challenge : CircleChallenge} :
      SignInStep defaults view task (.executing challenge) (.completion .success)
        (.quiet ((view.showToast ⟨.success, "Creating the wallet"⟩).setSignIn task
          (.queryStarted challenge)))
  | failed {challenge : CircleChallenge} {displayString : String} :
      SignInStep defaults view task (.executing challenge)
        (.completion (.failure displayString))
        (.quiet ((view.showToast ⟨.failure, "Error: " ++ displayString⟩).setSignIn task
          .ended))
  | queried {challenge : CircleChallenge} :
      SignInStep defaults view task (.queryStarted challenge) .queryStart
        ⟨[], [.request (getWalletStatus.request challenge.userToken)],
          .ok (view.setSignIn task (.querying challenge))⟩
  | noWallet {challenge : CircleChallenge} {outcome : HTTPOutcome WalletStatusResponse}
      (h : firstWallet (getWalletStatus.result outcome) = none) :
      SignInStep defaults view task (.querying challenge) (.walletStatus outcome)
        ⟨[], [.request (getWalletStatus.request challenge.userToken)], .ok view⟩
  | gotWallet {challenge : CircleChallenge} {outcome : HTTPOutcome WalletStatusResponse}
      {wallet : Wallet} (h : firstWallet (getWalletStatus.result outcome) = some wallet) :
      SignInStep defaults view task (.querying challenge) (.walletStatus outcome)
        ⟨walletWrites challenge wallet, [], .ok (view.walletFound task wallet)⟩
  | refreshed {refresh : Nat} (h : view.refreshes[refresh]? = some .ended) :
      SignInStep defaults view task (.refreshing refresh) .refreshed
        (.quiet (view.setSignIn task .ended))

theorem ContentView.signInStep_sound {defaults : UserDefaultsManager} {view : ContentView}
    {task : Nat} {flow : SignIn} {event : SignIn.Event} {e : AppEffect ContentView}
    (h : view.signInStep defaults task flow event = some e) :
    view.SignInStep defaults task flow event e := by
  unfold ContentView.signInStep at h
  split at h
  · have hinj := Option.some.inj h
    subst hinj
    exact .started
  · have hinj := Option.some.inj h
    subst hinj
    exact .registered
  · split at h
    · rename_i hresult
      have hinj := Option.some.inj h
      subst hinj
      exact .noSession hresult
    · rename_i hresult
      have hinj := Option.some.inj h
      subst hinj
      exact .gotSession hresult
  · split at h
    · rename_i hresult
      have hinj := Option.some.inj h
      subst hinj
      exact .noAccount hresult
    · rename_i hresult
      have hinj := Option.some.inj h
      subst hinj
      exact .gotAccount hresult
  · have hinj := Option.some.inj h
    subst hinj
    exact .executed
  · have hinj := Option.some.inj h
    subst hinj
    exact .succeeded
  · have hinj := Option.some.inj h
    subst hinj
    exact .failed
  · have hinj := Option.some.inj h
    subst hinj
    exact .queried
  · split at h
    · rename_i hwallet
      have hinj := Option.some.inj h
      subst hinj
      exact .gotWallet hwallet
    · rename_i hwallet
      have hinj := Option.some.inj h
      subst hinj
      exact .noWallet hwallet
  · split at h
    · rename_i hended
      have hinj := Option.some.inj h
      subst hinj
      exact .refreshed hended
    · cases h
  · cases h

/-- A step of a sign-in finds its wallet, or changes the notice and the sign-ins
and nothing else of the root screen. -/
theorem ContentView.SignInStep.frame {defaults : UserDefaultsManager}
    {view view' : ContentView} {task : Nat} {flow : SignIn} {event : SignIn.Event}
    {e : AppEffect ContentView} (h : view.SignInStep defaults task flow event e)
    (hnext : e.next = .ok view') :
    (∃ challenge wallet, e.writes = walletWrites challenge wallet ∧
      view' = view.walletFound task wallet) ∨
    ∃ toast signIns, view' = { view with toast := toast, signIns := signIns } := by
  cases h with
  | noSession _ | noAccount _ => cases hnext
  | gotWallet _ => exact .inl ⟨_, _, rfl, (Except.ok.inj hnext).symm⟩
  | _ => exact .inr ⟨_, _, (Except.ok.inj hnext).symm⟩

/-- A step of a call of `refreshBalance` changes the balance and the calls, and
nothing else of the root screen. -/
theorem ContentView.RefreshStep.frame {defaults : UserDefaultsManager}
    {view view' : ContentView} {task : Nat} {refresh : Refresh} {event : Refresh.Event}
    {e : AppEffect ContentView} (h : view.RefreshStep defaults task refresh event e)
    (hnext : e.next = .ok view') :
    ∃ balance refreshes, view' = { view with balance := balance, refreshes := refreshes } := by
  cases h <;> exact ⟨_, _, (Except.ok.inj hnext).symm⟩

/-! ## Steps of the views -/

/-- The steps of the root screen. -/
inductive ContentView.Acts (defaults : UserDefaultsManager) (view : ContentView) :
    ContentView.Event → AppEffect ContentView → Prop
  | tapSignIn (hshown : view.walletAddress = none) :
      Acts defaults view .tapSignIn (.quiet view.initiateSignIn)
  | signIn {task : Nat} {flow : SignIn} {event : SignIn.Event} {e : AppEffect ContentView}
      (htask : view.signIns[task]? = some flow)
      (hstep : view.SignInStep defaults task flow event e) :
      Acts defaults view (.signIn task event) e
  | other {event : ContentView.Event} {e : AppEffect ContentView}
      (htap : event ≠ .tapSignIn) (htask : ∀ task inner, event ≠ .signIn task inner)
      (hwrites : e.writes = [])
      (hnext : ∀ view', e.next = .ok view' →
        view'.signIns = view.signIns ∧ view'.isLoading = view.isLoading ∧
          (view.walletAddress.isSome → view'.walletAddress.isSome)) :
      Acts defaults view event e

theorem ContentView.Step.acts {defaults : UserDefaultsManager} {view : ContentView}
    {event : ContentView.Event} {e : AppEffect ContentView}
    (h : view.Step defaults event e) : view.Acts defaults event e := by
  cases h with
  | signInTapped hshown => exact .tapSignIn hshown
  | signIn htask hstep => exact .signIn htask (signInStep_sound hstep)
  | fetchFailed _ => exact .other (by simp) (by simp) rfl (Effect.forall_next_error _)
  | refresh _ hstep =>
      cases hstep <;>
        exact .other (by simp) (by simp) rfl (Effect.forall_next_ok ⟨rfl, rfl, id⟩)
  | appeared =>
      refine .other (by simp) (by simp) rfl (Effect.forall_next_ok ⟨rfl, rfl, ?_⟩)
      intro haddress
      rw [Option.isSome_or, haddress, Bool.or_true]
  | fetched _ | pulledToRefresh | buyTapped _ _ _ _ | changeDelivered _ =>
      exact .other (by simp) (by simp) rfl (Effect.forall_next_ok ⟨rfl, rfl, id⟩)

/-- The steps of a purchase sheet. -/
inductive PremiumPassView.Acts (defaults : UserDefaultsManager) (view : PremiumPassView) :
    PremiumPassView.Event → AppEffect PremiumPassView → Prop
  | tapPurchase (hshown : view.presented = true) (hstepOne : view.isStepOneCompleted = true) :
      Acts defaults view .tapPurchase (.quiet view.initiatePassMint)
  | mint {task : Nat} {t : Transaction} {event : Transaction.Event}
      {e : AppEffect Transaction} (htask : view.mints[task]? = some t)
      (hstep : t.Step view.mintCode defaults event e) :
      Acts defaults view (.mint task event) (e.map (view.afterMint task event))
  | other {event : PremiumPassView.Event} {e : AppEffect PremiumPassView}
      (htap : event ≠ .tapPurchase) (htask : ∀ task inner, event ≠ .mint task inner)
      (hwrites : e.writes = [])
      (hnext : ∀ view', e.next = .ok view' →
        view'.mints = view.mints ∧ view'.isLoadingMint = view.isLoadingMint) :
      Acts defaults view event e

theorem PremiumPassView.Step.acts {defaults : UserDefaultsManager}
    {view : PremiumPassView} {event : PremiumPassView.Event}
    {e : AppEffect PremiumPassView} (h : view.Step defaults event e) :
    view.Acts defaults event e := by
  cases h with
  | purchaseTapped hshown hstepOne => exact .tapPurchase hshown hstepOne
  | mint htask hstep => exact .mint htask hstep
  | noSession _ | noUrl _ | noStatus _ =>
      exact .other (by simp) (by simp) rfl (Effect.forall_next_error _)
  | closed _ | worldCoinTapped _ _ | connected _ | confirmed _ | unconfirmed _ _ =>
      exact .other (by simp) (by simp) rfl (Effect.forall_next_ok ⟨rfl, rfl⟩)

/-- The steps of the page of a protocol. -/
inductive ProtocolDetailView.Acts (defaults : UserDefaultsManager)
    (view : ProtocolDetailView) :
    ProtocolDetailView.Event → AppEffect ProtocolDetailView → Prop
  | tapDeposit (hidle : view.isProcessingDeposit = false) :
      Acts defaults view .tapDeposit (.quiet view.depositFunds)
  | deposit {task : Nat} {t : Transaction} {event : Transaction.Event}
      {e : AppEffect Transaction} (htask : view.deposits[task]? = some t)
      (hstep : t.Step view.depositCode defaults event e) :
      Acts defaults view (.deposit task event) (e.map (view.afterDeposit task event))
  | other {event : ProtocolDetailView.Event} {e : AppEffect ProtocolDetailView}
      (htap : event ≠ .tapDeposit) (htask : ∀ task inner, event ≠ .deposit task inner)
      (hwrites : e.writes = [])
      (hnext : ∀ view', e.next = .ok view' →
        view'.deposits = view.deposits ∧
          view'.isProcessingDeposit = view.isProcessingDeposit) :
      Acts defaults view event e

theorem ProtocolDetailView.Step.acts {defaults : UserDefaultsManager}
    {view : ProtocolDetailView} {event : ProtocolDetailView.Event}
    {e : AppEffect ProtocolDetailView} (h : view.Step defaults event e) :
    view.Acts defaults event e := by
  cases h with
  | depositTapped _ _ hidle => exact .tapDeposit hidle
  | deposit htask hstep => exact .deposit htask hstep
  | fetchFailed _ => exact .other (by simp) (by simp) rfl (Effect.forall_next_error _)
  | commentPosted _ _ _ =>
      refine .other (by simp) (by simp) rfl fun view' hnext => ?_
      obtain ⟨newComment, rfl⟩ := postComment_eq hnext
      exact ⟨rfl, rfl⟩
  | appeared _ | fetched _ | amountEdited _ _ | commentEdited _ _ | disappeared _ =>
      exact .other (by simp) (by simp) rfl (Effect.forall_next_ok ⟨rfl, rfl⟩)

/-! ## Steps of a process -/

/-- The steps of a process. -/
inductive App.Acts (defaults : UserDefaultsManager) (app : App) :
    Action → AppEffect App → Prop
  | content {event : ContentView.Event} {e : AppEffect ContentView}
      (h : app.contentView.Acts defaults event e) :
      Acts defaults app (.content event) (e.map (app.afterContent event))
  | pass {index : Nat} {view : PremiumPassView} {event : PremiumPassView.Event}
      {e : AppEffect PremiumPassView} (hview : app.passViews[index]? = some view)
      (h : view.Acts defaults event e) :
      Acts defaults app (.pass index event) (e.map (app.afterPass index view))
  | detail {index : Nat} {view : ProtocolDetailView} {event : ProtocolDetailView.Event}
      {e : AppEffect ProtocolDetailView} (hview : app.detailViews[index]? = some view)
      (h : view.Acts defaults event e) :
      Acts defaults app (.detail index event) (e.map (app.afterDetail index))
  | openDetail {item : ProtocolItem} (hitem : item ∈ app.contentView.items) :
      Acts defaults app (.openDetail item) (.quiet { app with
        detailViews := app.detailViews ++ [{ protocolItem := item }] })

theorem App.Step.acts {defaults : UserDefaultsManager} {app : App} {action : Action}
    {e : AppEffect App} (h : app.Step defaults action e) : app.Acts defaults action e := by
  cases h with
  | content h => exact .content h.acts
  | pass hview h => exact .pass hview h.acts
  | detail hview h => exact .detail hview h.acts
  | openDetail hitem => exact .openDetail hitem

theorem acts_of_step {defaults : UserDefaultsManager} {app : App} {action : Action}
    {e : AppEffect App} (h : machine.step defaults app action = some e) :
    app.Acts defaults action e :=
  (App.step_of_some h).acts

end YieldMe

/-
  Views.lean --- the steps of every view, in full.

  For each view an inductive lists every way one of its steps can go, with the
  guards it passed and the state it leaves.  `App.Step` says what such a step is
  to the process: it replaces the entry of its view, and a sheet that it
  dismissed is gone from the root screen too.

  The last section reads this backwards: an entry of the next memory was there
  before, is fresh, or is what its view stepped to.  Three rules for laws of all
  sheets, of all pages and of the root screen follow.
-/
import YieldMe.App
import YieldMe.Foundation.Tasks

set_option autoImplicit false

namespace YieldMe

open CircleNetworking Durable Tasks

/-! ## The purchase sheet -/

/-- The steps of a purchase sheet. -/
inductive PremiumPassView.Step (defaults : UserDefaultsManager) (view : PremiumPassView) :
    PremiumPassView.Event → AppEffect PremiumPassView → Prop
  | closed (hshown : view.presented = true) :
      Step defaults view .tapClose (.quiet { view with presented := false })
  | worldCoinTapped (hshown : view.presented = true)
      (hstepOne : view.isStepOneCompleted = false) :
      Step defaults view .tapWorldCoin (.quiet { view with
        isLoadingWorldCoin := true, sessions := view.sessions ++ [.started] })
  | noSession {task : Nat} {urlParses : Bool} (htask : view.sessions[task]? = some .started) :
      Step defaults view (.worldCoin task (.start none urlParses)) (.trap .session)
  | noUrl {task : Nat} {url : String} (htask : view.sessions[task]? = some .started) :
      Step defaults view (.worldCoin task (.start (some url) false)) (.trap .url)
  | connected {task : Nat} {url : String} (htask : view.sessions[task]? = some .started) :
      Step defaults view (.worldCoin task (.start (some url) true))
        ⟨[], [.openURL url], .ok { view with sessions := view.sessions.set task .polling }⟩
  | noStatus {task : Nat} (htask : view.sessions[task]? = some .polling) :
      Step defaults view (.worldCoin task (.poll none)) (.trap .poll)
  | confirmed {task : Nat} {proof : Proof} (htask : view.sessions[task]? = some .polling) :
      Step defaults view (.worldCoin task (.poll (some (.confirmed proof))))
        (.quiet { view with
          proof := some (WrappedSession.wrap proof)
          isLoadingWorldCoin := false
          isStepOneCompleted := true
          sessions := view.sessions.set task .polling })
  | unconfirmed {task : Nat} {status : Status} (htask : view.sessions[task]? = some .polling)
      (hstatus : ∀ proof, status ≠ .confirmed proof) :
      Step defaults view (.worldCoin task (.poll (some status)))
        (.quiet { view with sessions := view.sessions.set task .polling })
  | purchaseTapped (hshown : view.presented = true)
      (hstepOne : view.isStepOneCompleted = true) :
      Step defaults view .tapPurchase (.quiet view.initiatePassMint)
  | mint {task : Nat} {t : Transaction} {event : Transaction.Event}
      {e : AppEffect Transaction} (htask : view.mints[task]? = some t)
      (hstep : t.Step view.mintCode defaults event e) :
      Step defaults view (.mint task event) (e.map (view.afterMint task event))

theorem PremiumPassView.initiateWorldCoin_sound {defaults : UserDefaultsManager}
    {view : PremiumPassView} {task : Nat} {session : WorldCoinSession}
    {event : WorldCoinSession.Event} {e : AppEffect PremiumPassView}
    (htask : view.sessions[task]? = some session)
    (h : view.initiateWorldCoin task session event = some e) :
    view.Step defaults (.worldCoin task event) e := by
  cases session with
  | ended => cases h
  | started =>
      cases event with
      | poll outcome => cases h
      | start outcome urlParses =>
          cases outcome with
          | none =>
              have he := Option.some.inj h
              subst he
              exact .noSession htask
          | some url =>
              cases urlParses with
              | false =>
                  have he := Option.some.inj h
                  subst he
                  exact .noUrl htask
              | true =>
                  have he := Option.some.inj h
                  subst he
                  exact .connected htask
  | polling =>
      cases event with
      | start outcome urlParses => cases h
      | poll outcome =>
          rcases outcome with _ | status
          · have he := Option.some.inj h
            subst he
            exact .noStatus htask
          · have he := Option.some.inj h
            subst he
            cases status with
            | confirmed proof => exact .confirmed htask
            | _ => exact .unconfirmed htask (by simp)

theorem PremiumPassView.step_of_some {defaults : UserDefaultsManager}
    {view : PremiumPassView} {event : PremiumPassView.Event}
    {e : AppEffect PremiumPassView} (h : view.step defaults event = some e) :
    view.Step defaults event e := by
  cases event with
  | tapClose =>
      obtain ⟨hshown, rfl⟩ := Option.ite_some_none_eq_some.mp h
      exact .closed hshown
  | tapWorldCoin =>
      obtain ⟨hshown, rfl⟩ := Option.ite_some_none_eq_some.mp h
      obtain ⟨hpresented, hstepOne⟩ := Bool.and_eq_true_iff.mp hshown
      exact .worldCoinTapped hpresented (by simpa using hstepOne)
  | worldCoin task inner =>
      obtain ⟨session, htask, h⟩ := Option.bind_eq_some_iff.mp h
      exact initiateWorldCoin_sound htask h
  | tapPurchase =>
      obtain ⟨hshown, rfl⟩ := Option.ite_some_none_eq_some.mp h
      obtain ⟨hpresented, hstepOne⟩ := Bool.and_eq_true_iff.mp hshown
      exact .purchaseTapped hpresented hstepOne
  | mint task inner =>
      obtain ⟨t, ht, h⟩ := Option.bind_eq_some_iff.mp h
      obtain ⟨effect, heffect, he⟩ := Option.map_eq_some_iff.mp h
      subst he
      exact .mint ht (Transaction.step_sound heffect)

/-! ## The page of a protocol -/

/-- The steps of the page of a protocol. -/
inductive ProtocolDetailView.Step (defaults : UserDefaultsManager)
    (view : ProtocolDetailView) :
    ProtocolDetailView.Event → AppEffect ProtocolDetailView → Prop
  | appeared (hshown : view.presented = true) :
      Step defaults view .onAppear
        ⟨[], [.getDocuments "comments" (some view.protocolItem.id)],
          .ok { view with pendingFetches := view.pendingFetches + 1 }⟩
  | fetchFailed (hpending : view.pendingFetches ≠ 0) :
      Step defaults view (.fetchedComments none) (.trap .getDocuments)
  | fetched {documents : List (Option Comment)} (hpending : view.pendingFetches ≠ 0) :
      Step defaults view (.fetchedComments (some documents)) (.quiet { view with
        comments := documents.filterMap id, pendingFetches := view.pendingFetches - 1 })
  | amountEdited {text : String} (hshown : view.presented = true)
      (hidle : view.isProcessingDeposit = false) :
      Step defaults view (.editDepositAmount text)
        (.quiet { view with depositAmount := text })
  | depositTapped (hshown : view.presented = true)
      (hamount : view.depositAmount.isEmpty = false)
      (hidle : view.isProcessingDeposit = false) :
      Step defaults view .tapDeposit (.quiet view.depositFunds)
  | deposit {task : Nat} {t : Transaction} {event : Transaction.Event}
      {e : AppEffect Transaction} (htask : view.deposits[task]? = some t)
      (hstep : t.Step view.depositCode defaults event e) :
      Step defaults view (.deposit task event) (e.map (view.afterDeposit task event))
  | commentEdited {text : String} (hshown : view.presented = true)
      (hpass : defaults.purchasedPass = true) :
      Step defaults view (.editNewComment text) (.quiet { view with newCommentText := text })
  | commentPosted (hshown : view.presented = true) (hpass : defaults.purchasedPass = true)
      (htext : view.newCommentText.isEmpty = false) :
      Step defaults view .tapPostComment ⟨[], [], view.postComment defaults⟩
  | disappeared (hshown : view.presented = true) :
      Step defaults view .onDisappear (.quiet { view with presented := false })

theorem ProtocolDetailView.step_of_some {defaults : UserDefaultsManager}
    {view : ProtocolDetailView} {event : ProtocolDetailView.Event}
    {e : AppEffect ProtocolDetailView} (h : view.step defaults event = some e) :
    view.Step defaults event e := by
  cases event with
  | onAppear =>
      obtain ⟨hshown, rfl⟩ := Option.ite_some_none_eq_some.mp h
      exact .appeared hshown
  | fetchedComments documents =>
      obtain ⟨hpending, he⟩ := Option.ite_none_left_eq_some.mp h
      cases documents with
      | none =>
          have he := Option.some.inj he
          subst he
          exact .fetchFailed hpending
      | some documents =>
          have he := Option.some.inj he
          subst he
          exact .fetched hpending
  | editDepositAmount text =>
      obtain ⟨hshown, rfl⟩ := Option.ite_some_none_eq_some.mp h
      obtain ⟨hpresented, hidle⟩ := Bool.and_eq_true_iff.mp hshown
      exact .amountEdited hpresented (by simpa using hidle)
  | tapDeposit =>
      obtain ⟨hshown, rfl⟩ := Option.ite_some_none_eq_some.mp h
      simp only [Bool.and_eq_true, Bool.not_eq_true'] at hshown
      exact .depositTapped hshown.1.1 hshown.1.2 hshown.2
  | deposit task inner =>
      obtain ⟨t, ht, h⟩ := Option.bind_eq_some_iff.mp h
      obtain ⟨effect, heffect, he⟩ := Option.map_eq_some_iff.mp h
      subst he
      exact .deposit ht (Transaction.step_sound heffect)
  | editNewComment text =>
      obtain ⟨hshown, rfl⟩ := Option.ite_some_none_eq_some.mp h
      obtain ⟨hpresented, hpass⟩ := Bool.and_eq_true_iff.mp hshown
      exact .commentEdited hpresented hpass
  | tapPostComment =>
      obtain ⟨hshown, rfl⟩ := Option.ite_some_none_eq_some.mp h
      simp only [Bool.and_eq_true, Bool.not_eq_true'] at hshown
      exact .commentPosted hshown.1.1 hshown.1.2 hshown.2
  | onDisappear =>
      obtain ⟨hshown, rfl⟩ := Option.ite_some_none_eq_some.mp h
      exact .disappeared hshown

/-! ## The root screen -/

/-- The steps of a call of `refreshBalance`. -/
inductive ContentView.RefreshStep (defaults : UserDefaultsManager) (view : ContentView)
    (task : Nat) : Refresh → Refresh.Event → AppEffect ContentView → Prop
  | requested {walletID userToken : String} (hid : defaults.walletID = some walletID)
      (htoken : defaults.userToken = some userToken) :
      RefreshStep defaults view task .started .start
        ⟨[], [.request (getWalletBalance.request userToken walletID)],
          .ok (view.setRefresh task .requesting)⟩
  | noWallet (hmissing : defaults.walletID = none ∨ defaults.userToken = none) :
      RefreshStep defaults view task .started .start (.quiet (view.setRefresh task .ended))
  | noAnswer {outcome : HTTPOutcome WalletBalanceResponse}
      (hresult : getWalletBalance.result outcome = none) :
      RefreshStep defaults view task .requesting (.response outcome)
        (.quiet (view.setRefresh task .ended))
  | answered {outcome : HTTPOutcome WalletBalanceResponse} {response : WalletBalanceResponse}
      (hresult : getWalletBalance.result outcome = some response) :
      RefreshStep defaults view task .requesting (.response outcome)
        (.quiet (setRefresh { view with
          balance := balanceAfter view.balance response.tokenBalances } task .ended))

theorem ContentView.refreshBalance_sound {defaults : UserDefaultsManager}
    {view : ContentView} {task : Nat} {refresh : Refresh} {event : Refresh.Event}
    {e : AppEffect ContentView}
    (h : view.refreshBalance defaults task refresh event = some e) :
    view.RefreshStep defaults task refresh event e := by
  unfold ContentView.refreshBalance at h
  split at h
  · split at h
    · rename_i hid htoken
      have he := Option.some.inj h
      subst he
      exact .requested hid htoken
    · rename_i hmissing
      have he := Option.some.inj h
      subst he
      apply RefreshStep.noWallet
      by_contra hstored
      rw [not_or, ← ne_eq, ← ne_eq, Option.ne_none_iff_exists', Option.ne_none_iff_exists']
        at hstored
      obtain ⟨⟨walletID, hid⟩, userToken, htoken⟩ := hstored
      exact hmissing walletID userToken hid htoken
  · split at h
    · rename_i hresult
      have he := Option.some.inj h
      subst he
      exact .noAnswer hresult
    · rename_i hresult
      have he := Option.some.inj h
      subst he
      exact .answered hresult
  · cases h

/-- The steps of the root screen; those of a sign-in are listed by
`ContentView.SignInStep`. -/
inductive ContentView.Step (defaults : UserDefaultsManager) (view : ContentView) :
    ContentView.Event → AppEffect ContentView → Prop
  | appeared :
      Step defaults view .onAppear ⟨[], [.getDocuments "projects" none], .ok { view with
        walletAddress := defaults.walletAddress.or view.walletAddress
        pendingFetches := view.pendingFetches + 1 }⟩
  | fetchFailed (hpending : view.pendingFetches ≠ 0) :
      Step defaults view (.fetchedProtocols none) (.trap .getDocuments)
  | fetched {documents : List (Option ProtocolItem)} (hpending : view.pendingFetches ≠ 0) :
      Step defaults view (.fetchedProtocols (some documents)) (.quiet { view with
        items := documents.filterMap id, pendingFetches := view.pendingFetches - 1 })
  | signInTapped (hshown : view.walletAddress = none) :
      Step defaults view .tapSignIn (.quiet view.initiateSignIn)
  | signIn {task : Nat} {flow : SignIn} {event : SignIn.Event} {e : AppEffect ContentView}
      (htask : view.signIns[task]? = some flow)
      (hstep : view.signInStep defaults task flow event = some e) :
      Step defaults view (.signIn task event) e
  | pulledToRefresh :
      Step defaults view .pullToRefresh
        (.quiet { view with refreshes := view.refreshes ++ [.started] })
  | refresh {task : Nat} {refresh : Refresh} {event : Refresh.Event}
      {e : AppEffect ContentView} (htask : view.refreshes[task]? = some refresh)
      (hstep : view.RefreshStep defaults task refresh event e) :
      Step defaults view (.refresh task event) e
  | buyTapped (haddress : view.walletAddress.isSome) (hcopy : view.purchasedPass = false)
      (hpass : defaults.purchasedPass = false)
      (hclosed : view.isCommunityPassPresented = false) :
      Step defaults view .tapBuyCommunityPass (.quiet { view with
        isCommunityPassPresented := true
        undeliveredChanges := view.undeliveredChanges + 1 })
  | changeDelivered (hpending : view.undeliveredChanges ≠ 0) :
      Step defaults view .onChangePresented (.quiet { view with
        purchasedPass := defaults.purchasedPass
        undeliveredChanges := view.undeliveredChanges - 1 })

theorem ContentView.step_of_some {defaults : UserDefaultsManager} {view : ContentView}
    {event : ContentView.Event} {e : AppEffect ContentView}
    (h : view.step defaults event = some e) : view.Step defaults event e := by
  cases event with
  | onAppear =>
      have he := Option.some.inj h
      subst he
      exact .appeared
  | fetchedProtocols documents =>
      obtain ⟨hpending, he⟩ := Option.ite_none_left_eq_some.mp h
      cases documents with
      | none =>
          have he := Option.some.inj he
          subst he
          exact .fetchFailed hpending
      | some documents =>
          have he := Option.some.inj he
          subst he
          exact .fetched hpending
  | tapSignIn =>
      obtain ⟨hshown, rfl⟩ := Option.ite_some_none_eq_some.mp h
      exact .signInTapped (by simpa using hshown)
  | signIn task inner =>
      obtain ⟨flow, hflow, hstep⟩ := Option.bind_eq_some_iff.mp h
      exact .signIn hflow hstep
  | pullToRefresh =>
      have he := Option.some.inj h
      subst he
      exact .pulledToRefresh
  | refresh task inner =>
      obtain ⟨refresh, htask, hstep⟩ := Option.bind_eq_some_iff.mp h
      exact .refresh htask (refreshBalance_sound hstep)
  | tapBuyCommunityPass =>
      obtain ⟨hshown, rfl⟩ := Option.ite_some_none_eq_some.mp h
      simp only [Bool.and_eq_true, Bool.not_eq_true', Bool.or_eq_false_iff] at hshown
      obtain ⟨⟨haddress, hcopy, hpass⟩, hclosed⟩ := hshown
      exact .buyTapped haddress hcopy hpass hclosed
  | onChangePresented =>
      obtain ⟨hpending, he⟩ := Option.ite_none_left_eq_some.mp h
      have he := Option.some.inj he
      subst he
      exact .changeDelivered hpending

/-! ## The process -/

/-- The steps of a process. -/
inductive App.Step (defaults : UserDefaultsManager) (app : App) :
    Action → AppEffect App → Prop
  | content {event : ContentView.Event} {e : AppEffect ContentView}
      (h : app.contentView.Step defaults event e) :
      Step defaults app (.content event) (e.map (app.afterContent event))
  | pass {index : Nat} {view : PremiumPassView} {event : PremiumPassView.Event}
      {e : AppEffect PremiumPassView} (hview : app.passViews[index]? = some view)
      (h : view.Step defaults event e) :
      Step defaults app (.pass index event) (e.map (app.afterPass index view))
  | detail {index : Nat} {view : ProtocolDetailView} {event : ProtocolDetailView.Event}
      {e : AppEffect ProtocolDetailView} (hview : app.detailViews[index]? = some view)
      (h : view.Step defaults event e) :
      Step defaults app (.detail index event) (e.map (app.afterDetail index))
  | openDetail {item : ProtocolItem} (hitem : item ∈ app.contentView.items) :
      Step defaults app (.openDetail item) (.quiet { app with
        detailViews := app.detailViews ++ [{ protocolItem := item }] })

theorem App.step_of_some {defaults : UserDefaultsManager} {app : App} {action : Action}
    {e : AppEffect App} (h : machine.step defaults app action = some e) :
    app.Step defaults action e := by
  cases action with
  | content event =>
      obtain ⟨effect, heffect, he⟩ := Option.map_eq_some_iff.mp h
      subst he
      exact .content (ContentView.step_of_some heffect)
  | pass index event =>
      obtain ⟨view, hview, h⟩ := Option.bind_eq_some_iff.mp h
      obtain ⟨effect, heffect, he⟩ := Option.map_eq_some_iff.mp h
      subst he
      exact .pass hview (PremiumPassView.step_of_some heffect)
  | detail index event =>
      obtain ⟨view, hview, h⟩ := Option.bind_eq_some_iff.mp h
      obtain ⟨effect, heffect, he⟩ := Option.map_eq_some_iff.mp h
      subst he
      exact .detail hview (ProtocolDetailView.step_of_some heffect)
  | openDetail item =>
      obtain ⟨hitem, rfl⟩ := Option.ite_some_none_eq_some.mp h
      exact .openDetail hitem

/-- What a transition does, when it is a step of a process. -/
structure Performs (e : Transit) (app : App) (action : Action) (effect : AppEffect App) :
    Prop where
  memory : e.before.memory = some app
  label : e.label = .act action
  step : machine.step e.before.stored app action = some effect

namespace App

variable {defaults : UserDefaultsManager} {app app' : App} {action : Action}
  {e : AppEffect App}

@[simp] theorem contentView_afterContent (event : ContentView.Event) (view : ContentView) :
    (app.afterContent event view).contentView = view := by
  cases event <;> rfl

@[simp] theorem detailViews_afterContent (event : ContentView.Event) (view : ContentView) :
    (app.afterContent event view).detailViews = app.detailViews := by
  cases event <;> rfl

/-- A sheet after a step of the root screen was there before, or is fresh. -/
theorem passView_afterContent {event : ContentView.Event} {view : ContentView}
    {index : Nat} {sheet : PremiumPassView}
    (h : (app.afterContent event view).passViews[index]? = some sheet) :
    app.passViews[index]? = some sheet ∨ sheet = {} := by
  unfold afterContent at h
  split at h
  · rcases getElem?_concat_cases h with ⟨-, hfresh⟩ | hold
    · exact .inr hfresh
    · exact .inl hold
  · exact .inl h

/-- Where a purchase sheet of the next memory comes from. -/
theorem Step.passView_cases (h : app.Step defaults action e) (hnext : e.next = .ok app')
    {index : Nat} {view' : PremiumPassView} (hview' : app'.passViews[index]? = some view') :
    app.passViews[index]? = some view' ∨ view' = {} ∨
      ∃ event view inner, action = .pass index event ∧
        app.passViews[index]? = some view ∧ view.Step defaults event inner ∧
        inner.next = .ok view' := by
  cases h with
  | content h =>
      obtain ⟨view, -, rfl⟩ := Effect.map_next_ok hnext
      rcases passView_afterContent hview' with hold | hfresh
      · exact .inl hold
      · exact .inr (.inl hfresh)
  | detail _ _ =>
      obtain ⟨view, -, rfl⟩ := Effect.map_next_ok hnext
      exact .inl hview'
  | openDetail _ =>
      have hinj := Except.ok.inj hnext
      subst hinj
      exact .inl hview'
  | pass hview h =>
      obtain ⟨after, hafter, rfl⟩ := Effect.map_next_ok hnext
      rcases getElem?_set_cases hview' with ⟨rfl, rfl⟩ | ⟨_, hold⟩
      · exact .inr (.inr ⟨_, _, _, rfl, hview, h, hafter⟩)
      · exact .inl hold

/-- Where a protocol page of the next memory comes from. -/
theorem Step.detailView_cases (h : app.Step defaults action e) (hnext : e.next = .ok app')
    {index : Nat} {view' : ProtocolDetailView}
    (hview' : app'.detailViews[index]? = some view') :
    app.detailViews[index]? = some view' ∨
      (index = app.detailViews.length ∧ ∃ item, view' = { protocolItem := item }) ∨
      ∃ event view inner, action = .detail index event ∧
        app.detailViews[index]? = some view ∧ view.Step defaults event inner ∧
        inner.next = .ok view' := by
  cases h with
  | content h =>
      obtain ⟨view, -, rfl⟩ := Effect.map_next_ok hnext
      rw [detailViews_afterContent] at hview'
      exact .inl hview'
  | pass _ _ =>
      obtain ⟨view, -, rfl⟩ := Effect.map_next_ok hnext
      exact .inl hview'
  | openDetail _ =>
      have hinj := Except.ok.inj hnext
      subst hinj
      rcases getElem?_concat_cases hview' with ⟨hindex, hfresh⟩ | hold
      · exact .inr (.inl ⟨hindex, _, hfresh⟩)
      · exact .inl hold
  | detail hview h =>
      obtain ⟨after, hafter, rfl⟩ := Effect.map_next_ok hnext
      rcases getElem?_set_cases hview' with ⟨rfl, rfl⟩ | ⟨_, hold⟩
      · exact .inr (.inr ⟨_, _, _, rfl, hview, h, hafter⟩)
      · exact .inl hold

/-- The rule for laws of every purchase sheet. -/
theorem Step.passViews {P : PremiumPassView → Prop} (h : app.Step defaults action e)
    (hnext : e.next = .ok app') (hfresh : P {})
    (hstep : ∀ index event view view' inner, action = .pass index event →
      app.passViews[index]? = some view → view.Step defaults event inner →
      inner.next = .ok view' → P view → P view')
    (hP : ∀ view ∈ app.passViews, P view) : ∀ view ∈ app'.passViews, P view := by
  intro view' hmem
  obtain ⟨index, hview'⟩ := List.mem_iff_getElem?.mp hmem
  rcases h.passView_cases hnext hview' with hold | rfl |
    ⟨event, view, inner, haction, hview, hmove, hinner⟩
  · exact hP view' (List.mem_of_getElem? hold)
  · exact hfresh
  · exact hstep index event view view' inner haction hview hmove hinner
      (hP view (List.mem_of_getElem? hview))

/-- The rule for laws of every protocol page. -/
theorem Step.detailViews {P : ProtocolDetailView → Prop} (h : app.Step defaults action e)
    (hnext : e.next = .ok app') (hfresh : ∀ item, P { protocolItem := item })
    (hstep : ∀ index event view view' inner, action = .detail index event →
      app.detailViews[index]? = some view → view.Step defaults event inner →
      inner.next = .ok view' → P view → P view')
    (hP : ∀ view ∈ app.detailViews, P view) : ∀ view ∈ app'.detailViews, P view := by
  intro view' hmem
  obtain ⟨index, hview'⟩ := List.mem_iff_getElem?.mp hmem
  rcases h.detailView_cases hnext hview' with hold | ⟨-, item, rfl⟩ |
    ⟨event, view, inner, haction, hview, hmove, hinner⟩
  · exact hP view' (List.mem_of_getElem? hold)
  · exact hfresh item
  · exact hstep index event view view' inner haction hview hmove hinner
      (hP view (List.mem_of_getElem? hview))

/-- The rule for laws of the root screen. -/
theorem Step.contentView {P : ContentView → Prop} (h : app.Step defaults action e)
    (hnext : e.next = .ok app') (hdismissed : ∀ view, P view → P view.sheetDismissed)
    (hstep : ∀ event view' inner, action = .content event →
      app.contentView.Step defaults event inner → e.writes = inner.writes →
      inner.next = .ok view' → P view')
    (hP : P app.contentView) : P app'.contentView := by
  cases h with
  | content h =>
      obtain ⟨view', hview', rfl⟩ := Effect.map_next_ok hnext
      rw [contentView_afterContent]
      exact hstep _ _ _ rfl h rfl hview'
  | pass _ _ =>
      obtain ⟨after, -, rfl⟩ := Effect.map_next_ok hnext
      unfold afterPass
      split
      · exact hdismissed _ hP
      · exact hP
  | detail _ _ =>
      obtain ⟨after, -, rfl⟩ := Effect.map_next_ok hnext
      exact hP
  | openDetail _ =>
      have hinj := Except.ok.inj hnext
      subst hinj
      exact hP

end App

end YieldMe

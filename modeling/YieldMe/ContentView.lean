/-
  ContentView.lean --- the root screen: signing in, the wallet and its balance,
  the list of protocols.

  A tap of the sign-in button spawns a task that fetches a challenge in three
  requests, executes it in the wallet SDK, and then polls for the wallet.  The
  button is shown while `walletAddress` is nil and is never disabled:
  `isLoading` only changes its label, so several sign-ins can be under way.

  The body of the list is the same whichever screen is on top, so a tap is
  possible here whenever the code shows the control; the modal sheet covers the
  button that opens it.
-/
import YieldMe.ProtocolDetailView

set_option autoImplicit false

namespace YieldMe

open CircleNetworking Durable

/-- Where the task of one sign-in stands. -/
inductive SignIn where
  /-- spawned by the tap, not yet run -/
  | started
  /-- awaiting `registerUser` -/
  | registering (userId : String)
  /-- awaiting `getSessionToken` -/
  | gettingSession (userId : String)
  /-- awaiting `initializeAccount` -/
  | initializing (session : SessionTokenResponse)
  /-- awaiting the main actor for `signIn(with:)` -/
  | signingIn (challenge : CircleChallenge)
  /-- `WalletSdk.execute` was called, its completion is pending -/
  | executing (challenge : CircleChallenge)
  /-- the task of `queryWalletStatus` is spawned, not yet run -/
  | queryStarted (challenge : CircleChallenge)
  /-- awaiting `getWalletStatus` -/
  | querying (challenge : CircleChallenge)
  /-- awaiting the call of `refreshBalance` with this number -/
  | refreshing (refresh : Nat)
  /-- over, after a failed execution or at the end of `queryWalletStatus` -/
  | ended
  deriving DecidableEq

/-- What can happen to the task of a sign-in. -/
inductive SignIn.Event where
  | start (newUuid : String)
  | registered (outcome : HTTPOutcome Unit)
  | sessionToken (outcome : HTTPOutcome SessionTokenResponse) (idempotencyKey : String)
  | account (outcome : HTTPOutcome InitializeAccountResponse)
  | mainActor
  | completion (result : ExecuteResult)
  | queryStart
  | walletStatus (outcome : HTTPOutcome WalletStatusResponse)
  | refreshed

/-- Where a call of `refreshBalance` stands. -/
inductive Refresh where
  | started
  | requesting
  | ended
  deriving DecidableEq, Repr

inductive Refresh.Event where
  | start
  | response (outcome : HTTPOutcome WalletBalanceResponse)

/-- The state of the root screen: its `@State` properties, the tasks it has
spawned, the number of pending `fetchProtocols` calls and the number of change
notices of `isCommunityPassPresented` not yet delivered. -/
structure ContentView where
  toast : Toast := {}
  isLoading : Bool := false
  isCommunityPassPresented : Bool := false
  walletAddress : Option String
  balance : String := "0"
  purchasedPass : Bool
  items : List ProtocolItem := []
  signIns : List SignIn := []
  refreshes : List Refresh := []
  pendingFetches : Nat := 0
  undeliveredChanges : Nat := 0
  deriving DecidableEq

/-- What can happen to the root screen. -/
inductive ContentView.Event where
  | onAppear
  /-- the documents of the query and whether each one decodes; `none` when
  `getDocuments()` throws -/
  | fetchedProtocols (documents : Option (List (Option ProtocolItem)))
  | tapSignIn
  | signIn (task : Nat) (event : SignIn.Event)
  | pullToRefresh
  | refresh (task : Nat) (event : Refresh.Event)
  | tapBuyCommunityPass
  | onChangePresented

/-- Not over yet. -/
def SignIn.inProgress (flow : SignIn) : Bool := decide (flow ≠ .ended)

/-- `status?.data.wallets.first`. -/
def firstWallet (status : Option WalletStatusResponse) : Option Wallet :=
  status.bind (·.wallets.head?)

namespace ContentView

/-- The state of a freshly launched process. -/
def initial (defaults : UserDefaultsManager) : ContentView where
  walletAddress := defaults.walletAddress
  purchasedPass := defaults.purchasedPass

def showToast (view : ContentView) (notice : Notice) : ContentView :=
  { view with toast := view.toast.raise notice }

def setSignIn (view : ContentView) (task : Nat) (flow : SignIn) : ContentView :=
  { view with signIns := view.signIns.set task flow }

def setRefresh (view : ContentView) (task : Nat) (refresh : Refresh) : ContentView :=
  { view with refreshes := view.refreshes.set task refresh }

/-! ## Signing in -/

/-- `initiateSignIn`, the action of the sign-in button. -/
def initiateSignIn (view : ContentView) : ContentView :=
  { view with isLoading := true, signIns := view.signIns ++ [.started] }

/-- The view after `queryWalletStatus` found a wallet: the assignments to the
view's own state, and the call of `refreshBalance` it goes on to await. -/
def walletFound (view : ContentView) (task : Nat) (wallet : Wallet) : ContentView :=
  { view with
    isLoading := false
    walletAddress := some wallet.address
    refreshes := view.refreshes ++ [.started]
    signIns := view.signIns.set task (.refreshing view.refreshes.length) }

/-- The settings `queryWalletStatus` writes when it found a wallet, in order. -/
def walletWrites (challenge : CircleChallenge) (wallet : Wallet) : List SettingsWrite :=
  [.walletAddress (some wallet.address), .walletID (some wallet.id),
    .userToken (some challenge.userToken)]

/-- The settings `getSignInChallenge` writes, in order. -/
def sessionWrites (session : SessionTokenResponse) : List SettingsWrite :=
  [.userToken (some session.userToken), .encryptionKey (some session.encryptionKey)]

/-- One step of the task of a sign-in. -/
def signInStep (defaults : UserDefaultsManager) (view : ContentView) (task : Nat)
    (flow : SignIn) (event : SignIn.Event) : Option (AppEffect ContentView) :=
  match flow, event with
  | .started, .start newUuid =>
      let userId := defaults.uuid.getD newUuid
      some ⟨if defaults.uuid.isSome then [] else [.uuid newUuid],
        [.request (registerUser.request userId)],
        .ok (view.setSignIn task (.registering userId))⟩
  | .registering userId, .registered _ =>
      some ⟨[], [.request (getSessionToken.request userId)],
        .ok (view.setSignIn task (.gettingSession userId))⟩
  | .gettingSession _, .sessionToken outcome idempotencyKey =>
      match getSessionToken.result outcome with
      | none => some (.trap .sessionToken)
      | some session =>
          some ⟨[], [.request (initializeAccount.request idempotencyKey session.userToken
              ["MATIC-MUMBAI"])],
            .ok (view.setSignIn task (.initializing session))⟩
  | .initializing session, .account outcome =>
      -- both settings are written before `account!` is unwrapped
      match initializeAccount.result outcome with
      | none => some ⟨sessionWrites session, [], .error .account⟩
      | some account =>
          some ⟨sessionWrites session, [], .ok (view.setSignIn task (.signingIn
            ⟨session.userToken, session.encryptionKey, account.challengeId⟩))⟩
  | .signingIn challenge, .mainActor =>
      some ⟨[], [.execute challenge.userToken challenge.encryptionKey
        [challenge.challengeId]], .ok (view.setSignIn task (.executing challenge))⟩
  | .executing challenge, .completion .success =>
      some (.quiet ((view.showToast ⟨.success, "Creating the wallet"⟩).setSignIn task
        (.queryStarted challenge)))
  | .executing _, .completion (.failure displayString) =>
      -- `isLoading` stays set
      some (.quiet ((view.showToast ⟨.failure, "Error: " ++ displayString⟩).setSignIn task
        .ended))
  | .queryStarted challenge, .queryStart =>
      some ⟨[], [.request (getWalletStatus.request challenge.userToken)],
        .ok (view.setSignIn task (.querying challenge))⟩
  | .querying challenge, .walletStatus outcome =>
      match firstWallet (getWalletStatus.result outcome) with
      | some wallet =>
          some ⟨walletWrites challenge wallet, [], .ok (view.walletFound task wallet)⟩
      | none =>
          some ⟨[], [.request (getWalletStatus.request challenge.userToken)], .ok view⟩
  | .refreshing refresh, .refreshed =>
      if view.refreshes[refresh]? = some .ended then
        some (.quiet (view.setSignIn task .ended))
      else none
  | _, _ => none

/-! ## The balance -/

/-- The loop of `refreshBalance` over the token balances. -/
def balanceAfter (balance : String) (tokenBalances : List TokenBalance) : String :=
  tokenBalances.foldl
    (fun balance token => if token.symbol = "USDC" then token.amount else balance) balance

/-- One step of a call of `refreshBalance`. -/
def refreshBalance (defaults : UserDefaultsManager) (view : ContentView) (task : Nat)
    (refresh : Refresh) (event : Refresh.Event) : Option (AppEffect ContentView) :=
  match refresh, event with
  | .started, .start =>
      match defaults.walletID, defaults.userToken with
      | some walletID, some userToken =>
          some ⟨[], [.request (getWalletBalance.request userToken walletID)],
            .ok (view.setRefresh task .requesting)⟩
      | _, _ => some (.quiet (view.setRefresh task .ended))
  | .requesting, .response outcome =>
      match getWalletBalance.result outcome with
      | none => some (.quiet (view.setRefresh task .ended))
      | some response =>
          some (.quiet (setRefresh { view with
            balance := balanceAfter view.balance response.tokenBalances } task .ended))
  | _, _ => none

/-! ## The screen -/

/-- The purchase sheet is gone: the binding is cleared and its change is due to
be delivered. -/
def sheetDismissed (view : ContentView) : ContentView :=
  { view with
    isCommunityPassPresented := false
    undeliveredChanges := view.undeliveredChanges + 1 }

/-- One step of the root screen. -/
def step (defaults : UserDefaultsManager) (view : ContentView) :
    Event → Option (AppEffect ContentView)
  | .onAppear =>
      some ⟨[], [.getDocuments "projects" none], .ok { view with
        walletAddress := defaults.walletAddress.or view.walletAddress
        pendingFetches := view.pendingFetches + 1 }⟩
  | .fetchedProtocols documents =>
      if view.pendingFetches = 0 then none
      else
        match documents with
        | none => some (.trap .getDocuments)
        | some documents =>
            some (.quiet { view with
              items := documents.filterMap id, pendingFetches := view.pendingFetches - 1 })
  | .tapSignIn => if view.walletAddress.isNone then some (.quiet view.initiateSignIn) else none
  | .signIn task event =>
      view.signIns[task]?.bind fun flow => view.signInStep defaults task flow event
  | .pullToRefresh => some (.quiet { view with refreshes := view.refreshes ++ [.started] })
  | .refresh task event =>
      view.refreshes[task]?.bind fun refresh => view.refreshBalance defaults task refresh event
  | .tapBuyCommunityPass =>
      if view.walletAddress.isSome && !(view.purchasedPass || defaults.purchasedPass) &&
          !view.isCommunityPassPresented then
        some (.quiet { view with
          isCommunityPassPresented := true
          undeliveredChanges := view.undeliveredChanges + 1 })
      else none
  | .onChangePresented =>
      if view.undeliveredChanges = 0 then none
      else
        some (.quiet { view with
          purchasedPass := defaults.purchasedPass
          undeliveredChanges := view.undeliveredChanges - 1 })

end ContentView

end YieldMe

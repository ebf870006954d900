/-
  PremiumPassView.lean --- one presentation of the purchase sheet.

  Step 1 of the sheet starts World ID sessions, each polling in a loop of its
  own; step 2, shown once a session was confirmed, starts purchases of the pass.
  The button of step 2 is not disabled while a purchase is pending:
  `isLoadingMint` only changes its label.
-/
import YieldMe.BigInt
import YieldMe.Foundation.Loop
import YieldMe.Transaction
import YieldMe.WrappedSession

set_option autoImplicit false

namespace YieldMe

open Durable Loop

/-- Where a call of `initiateWorldCoin` stands. -/
inductive WorldCoinSession where
  | started
  | polling
  | ended
  deriving DecidableEq, Repr

/-- The state of a purchase sheet: its `@State` properties, whether it is still
presented, and the tasks it has spawned. -/
structure PremiumPassView where
  isStepOneCompleted : Bool := false
  isLoadingWorldCoin : Bool := false
  isLoadingMint : Bool := false
  toast : Toast := {}
  proof : Option WrappedProof := none
  presented : Bool := true
  sessions : List WorldCoinSession := []
  mints : List Transaction := []
  deriving DecidableEq

/-- What can happen to a call of `initiateWorldCoin`. -/
inductive WorldCoinSession.Event where
  /-- `WrappedSession(...)` with the outcome of `Session::new`, and whether
  `URL(string:)` accepts the connect URL -/
  | start (outcome : Option String) (urlParses : Bool)
  /-- `session.poll()` with the outcome of `poll_for_status` -/
  | poll (outcome : Option Status)

/-- What can happen to a purchase sheet. -/
inductive PremiumPassView.Event where
  | tapClose
  | tapWorldCoin
  | worldCoin (task : Nat) (event : WorldCoinSession.Event)
  | tapPurchase
  | mint (task : Nat) (event : Transaction.Event)

namespace PremiumPassView

/-! ## World ID -/

/-- The body of the polling loop. -/
def pollBody (res : PollResult) (view : PremiumPassView) : Control × PremiumPassView :=
  match res with
  | .confirmed proof =>
      -- the unlabelled `break` after these assignments leaves the switch, and
      -- nothing follows the switch in the loop
      (.again, { view with
        proof := some proof, isLoadingWorldCoin := false, isStepOneCompleted := true })
  | _ => (.again, view)

/-- The polling loop of `initiateWorldCoin` on a list of statuses. -/
def pollLoop (statuses : List Status) (view : PremiumPassView) : Progress PremiumPassView :=
  whileTrue (fun status => pollBody (WrappedSession.pollResult status)) statuses view

/-- One step of `initiateWorldCoin`: up to the loop, or one round of it. -/
def initiateWorldCoin (view : PremiumPassView) (task : Nat) (session : WorldCoinSession)
    (event : WorldCoinSession.Event) : Option (AppEffect PremiumPassView) :=
  match session, event with
  | .started, .start outcome urlParses =>
      match WrappedSession.new outcome with
      | .error trap => some (.trap trap)
      | .ok url =>
          if urlParses then
            some ⟨[], [.openURL url],
              .ok { view with sessions := view.sessions.set task .polling }⟩
          else some (.trap .url)
  | .polling, .poll outcome =>
      match WrappedSession.poll outcome with
      | .error trap => some (.trap trap)
      | .ok res =>
          let (control, view) := pollBody res view
          let session := if control = .leave then .ended else .polling
          some (.quiet { view with sessions := view.sessions.set task session })
  | _, _ => none

/-! ## The purchase -/

/-- The request model of a purchase, in the order its parts are unwrapped. -/
def passRequestModel (proof : Option WrappedProof) (defaults : UserDefaultsManager)
    (idempotencyKey : String) : Except Trap ContractExecutionChallengeRequest := do
  let walletAddress ← unwrap .walletAddress defaults.walletAddress
  let proof ← unwrap .proof proof
  let merkleRoot ← unwrap .hexString (hexStringToDecimalString proof.merkleRoot)
  let nullifierHash ← unwrap .hexString (hexStringToDecimalString proof.nullifierHash)
  let walletID ← unwrap .walletID defaults.walletID
  return {
    idempotencyKey := idempotencyKey
    abiFunctionSignature :=
      some "buyPass(address, uint256, uint256, uint256, bytes calldata)"
    abiParameters := some [walletAddress, "1", merkleRoot, nullifierHash, proof.proof]
    contractAddress := "0xaCe267a80E492f43aE30BccAF2f6049F4FcA05F7"
    walletId := walletID }

/-- The request model of a call to `buyPass`. -/
def isBuyPass (model : ContractExecutionChallengeRequest) : Prop :=
  model.abiFunctionSignature =
    some "buyPass(address, uint256, uint256, uint256, bytes calldata)"

/-- A purchase that got past its unwraps calls `buyPass` for the stored wallet. -/
theorem passRequestModel_spec {proof : Option WrappedProof}
    {defaults : UserDefaultsManager} {idempotencyKey : String}
    {model : ContractExecutionChallengeRequest}
    (h : passRequestModel proof defaults idempotencyKey = .ok model) :
    isBuyPass model ∧ defaults.walletAddress.isSome ∧
      defaults.walletID = some model.walletId := by
  obtain ⟨walletAddress, haddress, h⟩ := bind_eq_ok.mp h
  obtain ⟨proof, _, h⟩ := bind_eq_ok.mp h
  obtain ⟨merkleRoot, _, h⟩ := bind_eq_ok.mp h
  obtain ⟨nullifierHash, _, h⟩ := bind_eq_ok.mp h
  obtain ⟨walletID, hid, h⟩ := bind_eq_ok.mp h
  have hinj := Except.ok.inj h
  subst hinj
  rw [unwrap_eq_ok] at haddress hid
  exact ⟨rfl, by rw [haddress]; rfl, hid⟩

/-- What stops a purchase at its unwraps. -/
theorem passRequestModel_trap {proof : Option WrappedProof}
    {defaults : UserDefaultsManager} {idempotencyKey : String} {trap : Trap}
    (h : passRequestModel proof defaults idempotencyKey = .error trap) :
    (trap = .walletAddress ∧ defaults.walletAddress = none) ∨
      (trap = .proof ∧ proof = none) ∨ trap = .hexString ∨
      (trap = .walletID ∧ defaults.walletID = none) := by
  rcases bind_eq_error.mp h with h | ⟨walletAddress, _, h⟩
  · obtain ⟨rfl, hnone⟩ := unwrap_eq_error.mp h
    exact .inl ⟨rfl, hnone⟩
  rcases bind_eq_error.mp h with h | ⟨proof, _, h⟩
  · obtain ⟨rfl, hnone⟩ := unwrap_eq_error.mp h
    exact .inr (.inl ⟨rfl, hnone⟩)
  rcases bind_eq_error.mp h with h | ⟨merkleRoot, _, h⟩
  · exact .inr (.inr (.inl (unwrap_eq_error.mp h).1.symm))
  rcases bind_eq_error.mp h with h | ⟨nullifierHash, _, h⟩
  · exact .inr (.inr (.inl (unwrap_eq_error.mp h).1.symm))
  rcases bind_eq_error.mp h with h | ⟨walletID, _, h⟩
  · obtain ⟨rfl, hnone⟩ := unwrap_eq_error.mp h
    exact .inr (.inr (.inr ⟨rfl, hnone⟩))
  · cases h

/-- The notices of the completion in `executeChallenge`. -/
def completionNotices : ExecuteResult → List Notice
  | .success => [⟨.success, "Community pass is purchased"⟩]
  | .failure displayString => [⟨.failure, "Error: " ++ displayString⟩]

/-- The settings the completion in `executeChallenge` writes. -/
def completionWrites : ExecuteResult → List SettingsWrite
  | .success => [.purchasedPass true]
  | .failure _ => []

/-- The task of `initiatePassMint`. -/
def mintCode (view : PremiumPassView) : TransactionCode where
  requestModel := passRequestModel view.proof
  writes := completionWrites
  notices := completionNotices

/-- `initiatePassMint`, the action of the purchase button. -/
def initiatePassMint (view : PremiumPassView) : PremiumPassView :=
  { view with isLoadingMint := true, mints := view.mints ++ [{}] }

/-- The view after a step of a purchase task.  The completion shows its notices,
clears the flag and dismisses the sheet. -/
def afterMint (view : PremiumPassView) (task : Nat) (event : Transaction.Event)
    (t : Transaction) : PremiumPassView :=
  let view := { view with mints := view.mints.set task t }
  match event with
  | .completion result =>
      { view with
        toast := view.toast.raiseAll (completionNotices result)
        isLoadingMint := false
        presented := false }
  | _ => view

/-- One step of a purchase sheet. -/
def step (defaults : UserDefaultsManager) (view : PremiumPassView) :
    Event → Option (AppEffect PremiumPassView)
  | .tapClose => if view.presented then some (.quiet { view with presented := false }) else none
  | .tapWorldCoin =>
      if view.presented && !view.isStepOneCompleted then
        some (.quiet { view with
          isLoadingWorldCoin := true, sessions := view.sessions ++ [.started] })
      else none
  | .worldCoin task event =>
      view.sessions[task]?.bind fun session => view.initiateWorldCoin task session event
  | .tapPurchase =>
      if view.presented && view.isStepOneCompleted then some (.quiet view.initiatePassMint)
      else none
  | .mint task event =>
      view.mints[task]?.bind fun t =>
        (t.step view.mintCode defaults event).map (·.map (view.afterMint task event))

end PremiumPassView

end YieldMe

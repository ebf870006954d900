/-
  Effects.lean --- what a step of the app can do besides changing its memory.

  A step writes settings, calls services outside the app, raises notices, and
  can trap: a forced unwrap of nil, a `try!` on a thrown error and an
  overflowing addition end the process.
-/
import YieldMe.Foundation.Durable
import YieldMe.CircleNetworking
import YieldMe.UserDefaultsManager

set_option autoImplicit false

namespace YieldMe

/-- The places of the source where the process can trap. -/
inductive Trap where
  /-- `sessionToken!` in `getSignInChallenge` -/
  | sessionToken
  /-- `account!` in `getSignInChallenge` -/
  | account
  /-- `UserDefaultsManager.shared.walletAddress!` -/
  | walletAddress
  /-- `UserDefaultsManager.shared.walletID!` -/
  | walletID
  /-- `proof!` in `initiatePassMint` -/
  | proof
  /-- `hexStringToDecimalString(...)!` in `initiatePassMint` -/
  | hexString
  /-- `BigInt(depositAmount)!` in `depositFunds` -/
  | depositAmount
  /-- `URL(string: url)!` in `initiateWorldCoin` -/
  | url
  /-- `unwrap()` in `WrappedSession::new` -/
  | session
  /-- `unwrap()` in `WrappedSession::poll` -/
  | poll
  /-- `try!` on `getDocuments()` -/
  | getDocuments
  /-- the addition in the id of a new comment -/
  | commentId
  deriving DecidableEq, Repr

/-- A forced unwrap. -/
def unwrap {α : Type} (trap : Trap) : Option α → Except Trap α
  | some value => .ok value
  | none => .error trap

theorem unwrap_eq_ok {α : Type} {trap : Trap} {option : Option α} {value : α} :
    unwrap trap option = .ok value ↔ option = some value := by
  cases option <;> simp [unwrap]

/-- What a computation that may trap went through when it did not. -/
theorem bind_eq_ok {ε α β : Type} {x : Except ε α} {f : α → Except ε β} {b : β} :
    (x >>= f) = .ok b ↔ ∃ a, x = .ok a ∧ f a = .ok b := by
  cases x with
  | error trap => simp [bind, Except.bind]
  | ok a => simp [bind, Except.bind]

theorem unwrap_eq_error {α : Type} {trap t : Trap} {option : Option α} :
    unwrap trap option = .error t ↔ trap = t ∧ option = none := by
  cases option <;> simp [unwrap]

/-- Where a computation that may trap did. -/
theorem bind_eq_error {α β : Type} {x : Except Trap α} {f : α → Except Trap β} {t : Trap} :
    (x >>= f) = .error t ↔ x = .error t ∨ ∃ a, x = .ok a ∧ f a = .error t := by
  cases x with
  | error trap => simp [bind, Except.bind]
  | ok a => simp [bind, Except.bind]

/-- The result of a `WalletSdk.execute`, as its completion receives it.  Of an
error the app reads `displayString` only. -/
inductive ExecuteResult where
  | success
  | failure (displayString : String)
  deriving DecidableEq, Repr

/-- A call to something outside the app. -/
inductive OutsideCall where
  /-- `URLSession.shared.data(for:)` -/
  | request (request : URLRequest)
  /-- `WalletSdk.shared.execute(userToken:encryptionKey:challengeIds:)` -/
  | execute (userToken encryptionKey : String) (challengeIds : List String)
  /-- `openURL(_:)` -/
  | openURL (url : String)
  /-- `getDocuments()` of a collection, possibly of one project only -/
  | getDocuments (collection : String) (projectId : Option Int64)
  deriving DecidableEq

/-- The request of a step that makes one. -/
theorem OutsideCall.request_mem_singleton {request request' : URLRequest} :
    OutsideCall.request request ∈ [OutsideCall.request request'] ↔ request = request' := by
  rw [List.mem_singleton, OutsideCall.request.injEq]

/-- What one step does to the settings, the outside and a memory `μ`. -/
abbrev AppEffect (μ : Type) : Type := Durable.Effect SettingsWrite OutsideCall Trap μ

/-! ## Notices -/

inductive ToastType where
  | general
  | success
  | failure
  deriving DecidableEq, Repr

/-- The background colours of a toast. -/
inductive ToastColor where
  | translucentBlack
  | green
  | pink
  deriving DecidableEq, Repr

/-- The part of `Toast.Config` the views set; the duration is in seconds. -/
structure Toast.Config where
  backgroundColor : ToastColor := .translucentBlack
  duration : Nat := 2
  deriving DecidableEq, Repr

/-- The toast state of a view. -/
structure Toast where
  showToast : Bool := false
  toastMessage : Option String := none
  toastConfig : Toast.Config := {}
  deriving DecidableEq, Repr

/-- One call of `showToast`. -/
structure Notice where
  type : ToastType
  message : String
  deriving DecidableEq, Repr

/-- The body of `showToast`, the same in all three views. -/
def Toast.raise (_toast : Toast) (notice : Notice) : Toast where
  toastMessage := some notice.message
  showToast := true
  toastConfig :=
    match notice.type with
    | .general => {}
    | .success => { backgroundColor := .green, duration := 2 }
    | .failure => { backgroundColor := .pink, duration := 10 }

/-- Several calls of `showToast` in a row. -/
def Toast.raiseAll (toast : Toast) (notices : List Notice) : Toast :=
  notices.foldl Toast.raise toast

/-- The user is left with the last notice of a row. -/
theorem Toast.raiseAll_concat (toast : Toast) (notices : List Notice) (last : Notice) :
    toast.raiseAll (notices ++ [last]) = toast.raise last := by
  simp [raiseAll, List.foldl_append, raise]

end YieldMe

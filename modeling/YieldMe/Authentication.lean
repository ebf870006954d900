/-
  Authentication.lean --- which requests carry the token of their user.

  Five operations act for a user.  Four are passed the token as an argument, the
  fifth reads the stored one, and all build their request with `createRequest`,
  where the token is an optional parameter that defaults to nil.  A request is
  built only when the URL parses; whether it does is Foundation's to say, and is a
  parameter here.
-/
import YieldMe.CircleNetworking

set_option autoImplicit false

namespace YieldMe

open CircleNetworking

/-- The operations of `CircleNetworking` that act for a user, without the token. -/
inductive UserOperation where
  | initializeAccount (idempotencyKey : String) (blockchains : List String)
  | getUserStatus
  | getWalletStatus
  | getWalletBalance (walletID : String)
  | createContractExecutionChallenge (requestModel : ContractExecutionChallengeRequest)
  deriving DecidableEq

namespace UserOperation

/-- What the operation sends for a user: the token is its argument, or the
stored one. -/
def request (userToken : String) : UserOperation → URLRequest
  | .initializeAccount idempotencyKey blockchains =>
      initializeAccount.request idempotencyKey userToken blockchains
  | .getUserStatus => getUserStatus.request userToken
  | .getWalletStatus => getWalletStatus.request userToken
  | .getWalletBalance walletID => getWalletBalance.request userToken walletID
  | .createContractExecutionChallenge requestModel =>
      createContractExecutionChallenge.request (some userToken) requestModel

/-- The request, where `guard let url = URL(string:)` lets it be built. -/
def request? (urlParses : String → Bool) (userToken : String) (operation : UserOperation) :
    Option URLRequest :=
  if urlParses (operation.request userToken).url then some (operation.request userToken)
  else none

/-- The operation sends the token of its user, and so never the same for two
users. -/
structure Authenticates (urlParses : String → Bool) (operation : UserOperation) : Prop where
  carries : ∀ userToken request, operation.request? urlParses userToken = some request →
    request.value? "X-User-Token" = some userToken
  distinguishes : ∀ userToken userToken' request request',
    operation.request? urlParses userToken = some request →
    operation.request? urlParses userToken' = some request' →
    userToken ≠ userToken' → request ≠ request'

/-- Every operation but one hands the token to `createRequest`. -/
theorem request_userToken (userToken : String) {operation : UserOperation}
    (hother : ∀ walletID, operation ≠ .getWalletBalance walletID) :
    (operation.request userToken).value? "X-User-Token" = some userToken := by
  cases operation with
  | getWalletBalance walletID => exact absurd rfl (hother walletID)
  | initializeAccount _ _ | getUserStatus | getWalletStatus
  | createContractExecutionChallenge _ => exact createRequest_userToken _ _ _ _ _

theorem getWalletBalance_userToken (userToken walletID : String) :
    ((getWalletBalance walletID).request userToken).value? "X-User-Token" = none :=
  createRequest_userToken _ _ _ _ _

/-- A header that is the token tells two tokens apart. -/
theorem Authenticates.of_carries {urlParses : String → Bool} {operation : UserOperation}
    (hcarries : ∀ userToken request, operation.request? urlParses userToken = some request →
      request.value? "X-User-Token" = some userToken) :
    operation.Authenticates urlParses where
  carries := hcarries
  distinguishes := by
    rintro userToken userToken' request request' hrequest hrequest' hne rfl
    have htoken := hcarries userToken request hrequest
    have htoken' := hcarries userToken' request hrequest'
    exact hne (Option.some.inj (htoken.symm.trans htoken'))

/-- An operation authenticates its user exactly when it is not the balance of a
wallet whose URL parses. -/
theorem authenticates_iff (urlParses : String → Bool) (operation : UserOperation) :
    operation.Authenticates urlParses ↔
      ∀ walletID, operation = .getWalletBalance walletID →
        urlParses (baseUrl ++ "/wallets/" ++ walletID ++ "/balances") = false := by
  constructor
  · rintro hauthenticates walletID rfl
    by_contra hspoiled
    have hparses : urlParses (baseUrl ++ "/wallets/" ++ walletID ++ "/balances") = true := by
      simpa using hspoiled
    have hsent : (getWalletBalance walletID).request? urlParses "token" =
        some ((getWalletBalance walletID).request "token") :=
      if_pos hparses
    have htoken := hauthenticates.carries _ _ hsent
    rw [getWalletBalance_userToken] at htoken
    cases htoken
  · intro hbalance
    apply Authenticates.of_carries
    intro userToken request hrequest
    obtain ⟨hparses, rfl⟩ := Option.ite_some_none_eq_some.mp hrequest
    apply request_userToken
    rintro walletID rfl
    have hspoiled := hbalance walletID rfl
    exact absurd (hspoiled.symm.trans hparses) Bool.false_ne_true

/-- The request for the balance of a wallet is the same for every user. -/
theorem not_always_authenticates :
    ¬ ∀ urlParses operation, Authenticates urlParses operation := by
  intro hall
  have hauthenticates := hall (fun _ => true) (.getWalletBalance "id")
  exact hauthenticates.distinguishes "token" "other token" _ _ rfl rfl (by decide) rfl

end UserOperation

end YieldMe

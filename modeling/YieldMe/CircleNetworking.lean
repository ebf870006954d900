/-
  CircleNetworking.lean --- the requests the app sends to the Circle API and
  what it makes of the answers.

  Each operation of `CircleNetworking` is split at its one await: `request`
  builds what is sent, `result` turns what comes back into the optional value
  the operation returns.  The URLs of this file parse, except that a wallet id
  may spoil the one of `getWalletBalance`; that operation then returns nil, as
  it does on a failed request.
-/
import Mathlib.Data.List.Basic

set_option autoImplicit false

namespace YieldMe

/-! ## Models -/

/-- What a task hands to the wallet SDK. -/
structure CircleChallenge where
  userToken : String
  encryptionKey : String
  challengeId : String
  deriving DecidableEq, Repr

structure RegisterUserRequest where
  userId : String
  deriving DecidableEq, Repr

structure SessionTokenRequest where
  userId : String
  deriving DecidableEq, Repr

structure InitializeAccountRequest where
  idempotencyKey : String
  userToken : String
  accountType : String
  blockchains : List String
  deriving DecidableEq, Repr

structure ContractExecutionChallengeRequest where
  idempotencyKey : String
  abiFunctionSignature : Option String
  abiParameters : Option (List String)
  callData : Option String := none
  amount : Option String := none
  contractAddress : String
  feeLevel : Option String := some "HIGH"
  gasLimit : Option String := none
  gasPrice : Option String := none
  maxFee : Option String := none
  priorityFee : Option String := none
  refId : Option String := none
  walletId : String
  deriving DecidableEq, Repr

/-- The part of a response called `data`, for the session token. -/
structure SessionTokenResponse where
  userToken : String
  encryptionKey : String
  deriving DecidableEq, Repr

structure InitializeAccountResponse where
  challengeId : String
  deriving DecidableEq, Repr

structure ContractExecutionChallengeResponse where
  challengeId : String
  deriving DecidableEq, Repr

structure PinDetails where
  failedAttempts : Int64
  deriving DecidableEq

structure SecurityQuestionDetails where
  failedAttempts : Int64
  deriving DecidableEq

structure UserStatusResponse where
  id : String
  status : String
  createDate : String
  pinStatus : String
  pinDetails : PinDetails
  securityQuestionStatus : String
  securityQuestionDetails : SecurityQuestionDetails
  deriving DecidableEq

structure Wallet where
  id : String
  address : String
  deriving DecidableEq, Repr

structure WalletStatusResponse where
  wallets : List Wallet
  deriving DecidableEq, Repr

structure TokenBalance where
  symbol : String
  amount : String
  deriving DecidableEq, Repr

structure WalletBalanceResponse where
  tokenBalances : List TokenBalance
  deriving DecidableEq, Repr

/-! ## Requests -/

/-- The model a request body is the JSON encoding of. -/
inductive HTTPBody where
  | registerUser (model : RegisterUserRequest)
  | sessionToken (model : SessionTokenRequest)
  | initializeAccount (model : InitializeAccountRequest)
  | contractExecutionChallenge (model : ContractExecutionChallengeRequest)
  deriving DecidableEq, Repr

structure URLRequest where
  url : String
  httpMethod : String := "GET"
  headers : List (String × String) := []
  httpBody : Option HTTPBody := none
  deriving DecidableEq, Repr

namespace URLRequest

/-- `setValue(_:forHTTPHeaderField:)`: an earlier value of the field is replaced. -/
def setValue (request : URLRequest) (value field : String) : URLRequest :=
  { request with headers := (field, value) :: request.headers.filter (·.1 ≠ field) }

/-- `value(forHTTPHeaderField:)`. -/
def value? (request : URLRequest) (field : String) : Option String :=
  (request.headers.find? (·.1 = field)).map (·.2)

@[simp] theorem value?_setValue (request : URLRequest) (value field : String) :
    (request.setValue value field).value? field = some value := by
  simp [setValue, value?]

end URLRequest

namespace CircleNetworking

def apiKey : String :=
  "TEST_API_KEY:f6155880d9b1b9912a1a441b4a5442ad:34423e3e3b3cae0aa46eac5ba583d01c"

def baseUrl : String := "https://enduser-sdk.circle.com/v1/w3s"

def jsonContentType : String := "application/json"

/-- `createRequest(url:method:apiKey:userToken:body:)`. -/
def createRequest (url method apiKey : String) (userToken : Option String)
    (body : Option HTTPBody) : URLRequest :=
  let request : URLRequest := { url := url, httpMethod := method }
  let request := request.setValue jsonContentType "Content-Type"
  let request := request.setValue ("Bearer " ++ apiKey) "Authorization"
  let request :=
    match userToken with
    | some userToken => request.setValue userToken "X-User-Token"
    | none => request
  { request with httpBody := body }

/-- A request carries exactly the user token it was created with. -/
theorem createRequest_userToken (url method apiKey : String)
    (userToken : Option String) (body : Option HTTPBody) :
    (createRequest url method apiKey userToken body).value? "X-User-Token" =
      userToken := by
  cases userToken with
  | none => simp [createRequest, URLRequest.value?, URLRequest.setValue]
  | some token =>
      have hset := URLRequest.value?_setValue
        ((({ url := url, httpMethod := method } : URLRequest).setValue
          jsonContentType "Content-Type").setValue ("Bearer " ++ apiKey)
            "Authorization") token "X-User-Token"
      simpa [createRequest, URLRequest.value?] using hset

/-- What `URLSession.shared.data(for:)` and the decoding of its data give: a
thrown error, or a status code and the decoded body, nil where decoding throws. -/
inductive HTTPOutcome (α : Type) where
  | error
  | response (statusCode : Int) (decoded : Option α)

/-- The operations that decode the body whatever the status code is. -/
def decoded {α : Type} : HTTPOutcome α → Option α
  | .error => none
  | .response _ decoded => decoded

def registerUser.request (userId : String) : URLRequest :=
  createRequest (baseUrl ++ "/users") "POST" apiKey none
    (some (.registerUser ⟨userId⟩))

def getSessionToken.request (userId : String) : URLRequest :=
  createRequest (baseUrl ++ "/users/token") "POST" apiKey none
    (some (.sessionToken ⟨userId⟩))

def getSessionToken.result : HTTPOutcome SessionTokenResponse → Option SessionTokenResponse :=
  decoded

def initializeAccount.request (idempotencyKey userToken : String)
    (blockchains : List String) : URLRequest :=
  createRequest (baseUrl ++ "/user/initialize") "POST" apiKey (some userToken)
    (some (.initializeAccount ⟨idempotencyKey, userToken, "SCA", blockchains⟩))

def initializeAccount.result :
    HTTPOutcome InitializeAccountResponse → Option InitializeAccountResponse :=
  decoded

def getUserStatus.request (userToken : String) : URLRequest :=
  createRequest (baseUrl ++ "/user") "GET" apiKey (some userToken) none

def getUserStatus.result : HTTPOutcome UserStatusResponse → Option UserStatusResponse :=
  decoded

def getWalletStatus.request (userToken : String) : URLRequest :=
  createRequest (baseUrl ++ "/wallets") "GET" apiKey (some userToken) none

def getWalletStatus.result : HTTPOutcome WalletStatusResponse → Option WalletStatusResponse :=
  decoded

/-- The request of `getWalletBalance(userToken:walletID:)`, which does not pass
its user token on. -/
def getWalletBalance.request (_userToken walletID : String) : URLRequest :=
  createRequest (baseUrl ++ "/wallets/" ++ walletID ++ "/balances") "GET" apiKey
    none none

def getWalletBalance.result : HTTPOutcome WalletBalanceResponse → Option WalletBalanceResponse :=
  decoded

def createContractExecutionChallenge.request (userToken : Option String)
    (requestModel : ContractExecutionChallengeRequest) : URLRequest :=
  createRequest (baseUrl ++ "/user/transactions/contractExecution") "POST" apiKey
    userToken (some (.contractExecutionChallenge requestModel))

/-- Unlike the other operations, this one wants the status code 201. -/
def createContractExecutionChallenge.result :
    HTTPOutcome ContractExecutionChallengeResponse →
      Option ContractExecutionChallengeResponse
  | .response 201 decoded => decoded
  | _ => none

end CircleNetworking

end YieldMe

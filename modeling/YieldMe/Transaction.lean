/-
  Transaction.lean --- the task behind a purchase of the pass and behind a
  deposit.

  `PremiumPassView.initiatePassMint` and `ProtocolDetailView.depositFunds` spawn
  the same task: it builds a request model, awaits
  `createContractExecutionChallenge`, passes three guards, hops to the main
  actor to call `WalletSdk.execute`, and ends when the completion of that call
  has run.  What differs is the request model and the body of the completion;
  `TransactionCode` holds these three functions, and each view names its own.

  A step is the code between two awaits, or one completion.  The SDK completes
  an execution at most once, so the completion step leaves the stage it needs.
-/
import YieldMe.Effects

set_option autoImplicit false

namespace YieldMe

open CircleNetworking

/-- Where a transaction task stands. -/
inductive Transaction.Stage where
  /-- spawned by the tap, not yet run -/
  | started
  /-- awaiting the response of `createContractExecutionChallenge` -/
  | requesting
  /-- past the guards, awaiting the main actor -/
  | ready (challenge : CircleChallenge)
  /-- `WalletSdk.execute` was called, its completion is pending -/
  | executing (challenge : CircleChallenge)
  /-- returned at one of the guards -/
  | returned
  /-- the completion has run -/
  | completed (result : ExecuteResult)
  deriving DecidableEq

/-- A transaction task.  `sent` and `notices` are history: the request the task
sent, and its calls of `showToast`, oldest first. -/
structure Transaction where
  stage : Transaction.Stage := .started
  sent : Option URLRequest := none
  notices : List Notice := []
  deriving DecidableEq

/-- What can happen to a transaction task. -/
inductive Transaction.Event where
  | start (idempotencyKey : String)
  | response (outcome : HTTPOutcome ContractExecutionChallengeResponse)
  | execute
  | completion (result : ExecuteResult)

/-- What a view fills in: the request model, and what the completion writes and
tells the user. -/
structure TransactionCode where
  requestModel : UserDefaultsManager → String → Except Trap ContractExecutionChallengeRequest
  writes : ExecuteResult → List SettingsWrite
  notices : ExecuteResult → List Notice

namespace Transaction

/-- Neither returned nor completed. -/
def inProgress (t : Transaction) : Bool :=
  match t.stage with
  | .returned => false
  | .completed _ => false
  | _ => true

/-- The three guards after the await. -/
def challengeAfterResponse (defaults : UserDefaultsManager)
    (response : Option ContractExecutionChallengeResponse) : Option CircleChallenge :=
  defaults.userToken.bind fun userToken =>
    defaults.encryptionKey.bind fun encryptionKey =>
      response.map fun response => ⟨userToken, encryptionKey, response.challengeId⟩

/-- One step of the task. -/
def step (code : TransactionCode) (defaults : UserDefaultsManager) (t : Transaction)
    (event : Event) : Option (AppEffect Transaction) :=
  match t.stage, event with
  | .started, .start idempotencyKey =>
      match code.requestModel defaults idempotencyKey with
      | .error trap => some (.trap trap)
      | .ok requestModel =>
          let request :=
            createContractExecutionChallenge.request defaults.userToken requestModel
          some ⟨[], [.request request],
            .ok { t with stage := .requesting, sent := some request }⟩
  | .requesting, .response outcome =>
      match challengeAfterResponse defaults
          (createContractExecutionChallenge.result outcome) with
      | none => some (.quiet { t with stage := .returned })
      | some challenge => some (.quiet { t with stage := .ready challenge })
  | .ready challenge, .execute =>
      some ⟨[], [.execute challenge.userToken challenge.encryptionKey
        [challenge.challengeId]], .ok { t with stage := .executing challenge }⟩
  | .executing _, .completion result =>
      some ⟨code.writes result, [], .ok { t with
        stage := .completed result, notices := t.notices ++ code.notices result }⟩
  | _, _ => none

/-- The steps of a transaction task, one constructor for each way a step can
go. -/
inductive Step (code : TransactionCode) (defaults : UserDefaultsManager)
    (t : Transaction) : Event → AppEffect Transaction → Prop
  | trapped {key : String} {trap : Trap} (hstage : t.stage = .started)
      (hmodel : code.requestModel defaults key = .error trap) :
      Step code defaults t (.start key) (.trap trap)
  | requested {key : String} {model : ContractExecutionChallengeRequest}
      (hstage : t.stage = .started)
      (hmodel : code.requestModel defaults key = .ok model) :
      Step code defaults t (.start key)
        ⟨[], [.request (createContractExecutionChallenge.request defaults.userToken model)],
          .ok { t with
            stage := .requesting
            sent := some (createContractExecutionChallenge.request defaults.userToken model) }⟩
  | returned {outcome : HTTPOutcome ContractExecutionChallengeResponse}
      (hstage : t.stage = .requesting)
      (hguards : challengeAfterResponse defaults
        (createContractExecutionChallenge.result outcome) = none) :
      Step code defaults t (.response outcome) (.quiet { t with stage := .returned })
  | passed {outcome : HTTPOutcome ContractExecutionChallengeResponse}
      {challenge : CircleChallenge} (hstage : t.stage = .requesting)
      (hguards : challengeAfterResponse defaults
        (createContractExecutionChallenge.result outcome) = some challenge) :
      Step code defaults t (.response outcome) (.quiet { t with stage := .ready challenge })
  | executed {challenge : CircleChallenge} (hstage : t.stage = .ready challenge) :
      Step code defaults t .execute
        ⟨[], [.execute challenge.userToken challenge.encryptionKey [challenge.challengeId]],
          .ok { t with stage := .executing challenge }⟩
  | completed {challenge : CircleChallenge} {result : ExecuteResult}
      (hstage : t.stage = .executing challenge) :
      Step code defaults t (.completion result)
        ⟨code.writes result, [], .ok { t with
          stage := .completed result, notices := t.notices ++ code.notices result }⟩

variable {code : TransactionCode} {defaults : UserDefaultsManager} {t : Transaction}

theorem step_sound {event : Event} {e : AppEffect Transaction}
    (h : t.step code defaults event = some e) : Step code defaults t event e := by
  unfold step at h
  split at h
  · rename_i key hstage
    split at h
    · rename_i trap hmodel
      have hinj := Option.some.inj h
      subst hinj
      exact .trapped hstage hmodel
    · rename_i model hmodel
      have hinj := Option.some.inj h
      subst hinj
      exact .requested hstage hmodel
  · rename_i outcome hstage
    split at h
    · rename_i hguards
      have hinj := Option.some.inj h
      subst hinj
      exact .returned hstage hguards
    · rename_i challenge hguards
      have hinj := Option.some.inj h
      subst hinj
      exact .passed hstage hguards
  · rename_i challenge hstage
    have hinj := Option.some.inj h
    subst hinj
    exact .executed hstage
  · rename_i challenge result hstage
    have hinj := Option.some.inj h
    subst hinj
    exact .completed hstage
  · cases h

/-- A fresh task whose request model is built sends its request. -/
theorem step_start_of_ok {key : String} {model : ContractExecutionChallengeRequest}
    (hmodel : code.requestModel defaults key = .ok model) :
    ({} : Transaction).step code defaults (.start key) =
      some ⟨[], [.request (createContractExecutionChallenge.request defaults.userToken model)],
        .ok { stage := .requesting
              sent := some
                (createContractExecutionChallenge.request defaults.userToken model) }⟩ := by
  simp only [step, hmodel]

/-- A fresh task whose request model is not built stops the process. -/
theorem step_start_of_error {key : String} {trap : Trap}
    (hmodel : code.requestModel defaults key = .error trap) :
    ({} : Transaction).step code defaults (.start key) = some (.trap trap) := by
  simp only [step, hmodel]

/-- Only a task in progress takes a step. -/
theorem Step.inProgress_before {event : Event} {e : AppEffect Transaction}
    (h : Step code defaults t event e) : t.inProgress = true := by
  unfold inProgress
  cases h with
  | trapped hstage _ | requested hstage _ | returned hstage _ | passed hstage _
  | executed hstage | completed hstage => rw [hstage]

/-- A completion ends its task. -/
theorem Step.of_completion {result : ExecuteResult} {e : AppEffect Transaction}
    {t' : Transaction} (h : Step code defaults t (.completion result) e)
    (hnext : e.next = .ok t') :
    t'.stage = .completed result ∧ t'.notices = t.notices ++ code.notices result := by
  cases h with
  | completed _ =>
      have hinj := Except.ok.inj hnext
      subst hinj
      exact ⟨rfl, rfl⟩

/-- A task ends at one of its guards, or with its completion. -/
theorem Step.over {event : Event} {e : AppEffect Transaction} {t' : Transaction}
    (h : Step code defaults t event e) (hnext : e.next = .ok t')
    (hover : t'.inProgress = false) :
    (∃ outcome, event = .response outcome ∧ t' = { t with stage := .returned }) ∨
      ∃ result, event = .completion result := by
  cases h with
  | trapped _ _ => cases hnext
  | @returned outcome _ _ =>
      have hinj := Except.ok.inj hnext
      subst hinj
      exact .inl ⟨outcome, rfl, rfl⟩
  | @completed _ result _ => exact .inr ⟨result, rfl⟩
  | requested _ _ | passed _ _ | executed _ =>
      have hinj := Except.ok.inj hnext
      subst hinj
      cases hover

/-- The guards let a task pass exactly with the stored credentials and the id of
the response. -/
theorem challengeAfterResponse_eq_some {response : Option ContractExecutionChallengeResponse}
    {challenge : CircleChallenge} :
    challengeAfterResponse defaults response = some challenge ↔
      defaults.userToken = some challenge.userToken ∧
        defaults.encryptionKey = some challenge.encryptionKey ∧
        response = some ⟨challenge.challengeId⟩ := by
  rcases challenge with ⟨userToken, encryptionKey, challengeId⟩
  cases htoken : defaults.userToken <;> cases hkey : defaults.encryptionKey <;>
    cases response <;> simp [challengeAfterResponse, htoken, hkey]
  rename_i response
  cases response
  simp

end Transaction

end YieldMe

/-
  ProtocolDetailView.lean --- one presentation of the page of a protocol.

  The page starts deposits, and shows a pass holder the comments of the
  protocol.  Its Deposit button is disabled while `isProcessingDeposit` is set.
-/
import YieldMe.BigInt
import YieldMe.Transaction

set_option autoImplicit false

namespace YieldMe

open Durable

/-- A protocol document; its yearly rate is shown and not otherwise used. -/
structure ProtocolItem where
  id : Int64
  name : String
  rating : Int64
  url : String
  shortDescription : String
  tvl : String
  launchDate : String
  network : String
  whitepaper : String
  deriving DecidableEq

structure Comment where
  id : Int64
  user : String
  text : String
  deriving DecidableEq

/-- The state of the page of a protocol: its `@State` properties, whether it is
still presented, the tasks it has spawned, and the number of pending
`fetchComments` calls. -/
structure ProtocolDetailView where
  protocolItem : ProtocolItem
  newCommentText : String := ""
  comments : List Comment := []
  depositAmount : String := ""
  isProcessingDeposit : Bool := false
  toast : Toast := {}
  presented : Bool := true
  deposits : List Transaction := []
  pendingFetches : Nat := 0
  deriving DecidableEq

/-- What can happen to the page of a protocol. -/
inductive ProtocolDetailView.Event where
  | onAppear
  /-- the documents of a query and whether each one decodes; `none` when
  `getDocuments()` throws -/
  | fetchedComments (documents : Option (List (Option Comment)))
  | editDepositAmount (text : String)
  | tapDeposit
  | deposit (task : Nat) (event : Transaction.Event)
  | editNewComment (text : String)
  | tapPostComment
  | onDisappear

/-- `truncateString(_:toMaxLength:)`. -/
def truncateString (string : String) (maxLength : Nat) : String :=
  if string.length > maxLength then String.ofList (string.toList.take maxLength) ++ "..."
  else string

namespace ProtocolDetailView

/-! ## The deposit -/

/-- The request model of a deposit, in the order its parts are unwrapped. -/
def depositRequestModel (item : ProtocolItem) (depositAmount : String)
    (defaults : UserDefaultsManager) (idempotencyKey : String) :
    Except Trap ContractExecutionChallengeRequest := do
  let amount ← unwrap .depositAmount (depositParameter depositAmount)
  let walletID ← unwrap .walletID defaults.walletID
  return {
    idempotencyKey := idempotencyKey
    abiFunctionSignature := some "depositIntoPool(uint256, uint256)"
    abiParameters := some [toString item.id.toInt, amount]
    contractAddress := "0x17dE46BAB525309fE846f0eeD4A4dcBFBfB588d4"
    walletId := walletID }

/-- A deposit that got past its unwraps is for the stored wallet. -/
theorem depositRequestModel_spec {item : ProtocolItem} {depositAmount : String}
    {defaults : UserDefaultsManager} {idempotencyKey : String}
    {model : ContractExecutionChallengeRequest}
    (h : depositRequestModel item depositAmount defaults idempotencyKey = .ok model) :
    defaults.walletID = some model.walletId := by
  obtain ⟨amount, _, h⟩ := bind_eq_ok.mp h
  obtain ⟨walletID, hid, h⟩ := bind_eq_ok.mp h
  have hinj := Except.ok.inj h
  subst hinj
  rw [unwrap_eq_ok] at hid
  exact hid

/-- What stops a deposit at its unwraps. -/
theorem depositRequestModel_trap {item : ProtocolItem} {depositAmount : String}
    {defaults : UserDefaultsManager} {idempotencyKey : String} {trap : Trap}
    (h : depositRequestModel item depositAmount defaults idempotencyKey = .error trap) :
    (trap = .depositAmount ∧ depositParameter depositAmount = none) ∨
      (trap = .walletID ∧ defaults.walletID = none) := by
  rcases bind_eq_error.mp h with h | ⟨amount, _, h⟩
  · obtain ⟨rfl, hnone⟩ := unwrap_eq_error.mp h
    exact .inl ⟨rfl, hnone⟩
  rcases bind_eq_error.mp h with h | ⟨walletID, _, h⟩
  · obtain ⟨rfl, hnone⟩ := unwrap_eq_error.mp h
    exact .inr ⟨rfl, hnone⟩
  · cases h

/-- The notices of the completion in `executeChallenge`; the last one is raised
after the switch, whatever the result is. -/
def completionNotices (result : ExecuteResult) : List Notice :=
  (match result with
    | .success => [⟨.success, "Community pass is purchased"⟩]
    | .failure displayString => [⟨.failure, "Error: " ++ displayString⟩]) ++
  [⟨.success, "Deposit successful!"⟩]

/-- The settings the completion in `executeChallenge` writes. -/
def completionWrites : ExecuteResult → List SettingsWrite
  | .success => [.purchasedPass true]
  | .failure _ => []

/-- The task of `depositFunds`. -/
def depositCode (view : ProtocolDetailView) : TransactionCode where
  requestModel := depositRequestModel view.protocolItem view.depositAmount
  writes := completionWrites
  notices := completionNotices

/-- `depositFunds`, the action of the Deposit button. -/
def depositFunds (view : ProtocolDetailView) : ProtocolDetailView :=
  { view with isProcessingDeposit := true, deposits := view.deposits ++ [{}] }

/-- The view after a step of a deposit task.  The completion shows its notices
and clears the flag. -/
def afterDeposit (view : ProtocolDetailView) (task : Nat) (event : Transaction.Event)
    (t : Transaction) : ProtocolDetailView :=
  let view := { view with deposits := view.deposits.set task t }
  match event with
  | .completion result =>
      { view with
        toast := view.toast.raiseAll (completionNotices result)
        isProcessingDeposit := false }
  | _ => view

/-! ## Comments -/

/-- The id of a new comment, `(comments.max(by:)?.id ?? 0) + 1`. -/
def newCommentId (comments : List Comment) : Except Trap Int64 :=
  let maxId := ((comments.map (·.id)).max?).getD 0
  if maxId = Int64.maxValue then .error .commentId else .ok (maxId + 1)

/-- The action of the comment button. -/
def postComment (defaults : UserDefaultsManager) (view : ProtocolDetailView) :
    Except Trap ProtocolDetailView := do
  let newId ← newCommentId view.comments
  let walletAddress ← unwrap .walletAddress defaults.walletAddress
  let newComment : Comment := ⟨newId, truncateString walletAddress 20, view.newCommentText⟩
  return { view with comments := view.comments ++ [newComment], newCommentText := "" }

/-- A comment that is posted is appended under the new id, and the field is
emptied. -/
theorem postComment_spec {defaults : UserDefaultsManager} {view view' : ProtocolDetailView}
    (h : view.postComment defaults = .ok view') :
    ∃ newComment, newCommentId view.comments = .ok newComment.id ∧ view' =
      { view with comments := view.comments ++ [newComment], newCommentText := "" } := by
  obtain ⟨newId, hid, h⟩ := bind_eq_ok.mp h
  obtain ⟨walletAddress, _, h⟩ := bind_eq_ok.mp h
  exact ⟨⟨newId, _, _⟩, hid, (Except.ok.inj h).symm⟩

theorem postComment_eq {defaults : UserDefaultsManager} {view view' : ProtocolDetailView}
    (h : view.postComment defaults = .ok view') :
    ∃ newComment, view' =
      { view with comments := view.comments ++ [newComment], newCommentText := "" } := by
  obtain ⟨newComment, -, hview'⟩ := postComment_spec h
  exact ⟨newComment, hview'⟩

/-- What stops the comment button: the greatest id has no successor, or no
address is stored. -/
theorem postComment_trap {defaults : UserDefaultsManager} {view : ProtocolDetailView}
    {trap : Trap} (h : view.postComment defaults = .error trap) :
    (trap = .commentId ∧ (view.comments.map (·.id)).max? = some Int64.maxValue) ∨
      (trap = .walletAddress ∧ defaults.walletAddress = none) := by
  unfold postComment newCommentId at h
  by_cases hmax : ((view.comments.map (·.id)).max?).getD 0 = Int64.maxValue
  · apply Or.inl
    rw [if_pos hmax] at h
    refine ⟨(Except.error.inj h).symm, ?_⟩
    cases hids : (view.comments.map (·.id)).max? with
    | none =>
        rw [hids] at hmax
        exact absurd hmax (by decide)
    | some maxId =>
        rw [hids] at hmax
        exact congrArg some hmax
  · apply Or.inr
    rw [if_neg hmax] at h
    cases haddress : defaults.walletAddress with
    | none =>
        rw [haddress] at h
        exact ⟨(Except.error.inj h).symm, rfl⟩
    | some address =>
        rw [haddress] at h
        cases h

/-- One step of the page of a protocol. -/
def step (defaults : UserDefaultsManager) (view : ProtocolDetailView) :
    Event → Option (AppEffect ProtocolDetailView)
  | .onAppear =>
      if view.presented then
        some ⟨[], [.getDocuments "comments" (some view.protocolItem.id)],
          .ok { view with pendingFetches := view.pendingFetches + 1 }⟩
      else none
  | .fetchedComments documents =>
      if view.pendingFetches = 0 then none
      else
        match documents with
        | none => some (.trap .getDocuments)
        | some documents =>
            some (.quiet { view with
              comments := documents.filterMap id
              pendingFetches := view.pendingFetches - 1 })
  | .editDepositAmount text =>
      if view.presented && !view.isProcessingDeposit then
        some (.quiet { view with depositAmount := text })
      else none
  | .tapDeposit =>
      if view.presented && !view.depositAmount.isEmpty && !view.isProcessingDeposit then
        some (.quiet view.depositFunds)
      else none
  | .deposit task event =>
      view.deposits[task]?.bind fun t =>
        (t.step view.depositCode defaults event).map (·.map (view.afterDeposit task event))
  | .editNewComment text =>
      if view.presented && defaults.purchasedPass then
        some (.quiet { view with newCommentText := text })
      else none
  | .tapPostComment =>
      if view.presented && defaults.purchasedPass && !view.newCommentText.isEmpty then
        some ⟨[], [], view.postComment defaults⟩
      else none
  | .onDisappear => if view.presented then some (.quiet { view with presented := false }) else none

end ProtocolDetailView

end YieldMe
